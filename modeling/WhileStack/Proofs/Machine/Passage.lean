import WhileStack.Proofs.Machine.Control

/-! Depth of the stack on the ways of control through code with labels. Code that goes forward only is passed from its
front to its end. -/
namespace WhileStack.Machine

/-- On every way that control can take from a place, where the stack has some depth, it comes to the end of the code
with depth `high` and takes nothing from below `low` before. -/
inductive Arrives (code : Code) (low high : Nat) : Nat → Nat → Prop
  | done : Arrives code low high code.length high
  | step {p i k} (hi : code[p]? = some i) (hm : i.isMark = false) (enough : low + i.pops ≤ k)
    (goes : ∃ b q, Moves code p b q) (all : ∀ b q, Moves code p b q → Arrives code low high q (i.depthAfter k)) :
    Arrives code low high p k

/-- Control has come to a place with some depth, from the front of the code and with an empty stack there. -/
inductive Walks (code : Code) : Nat → Nat → Prop
  | start {p} (hp : Lands code 0 p) : Walks code p 0
  | step {p k i b q} (h : Walks code p k) (hi : code[p]? = some i) (hq : Moves code p b q) : Walks code q (i.depthAfter k)

/-- Branches go to labels further on, and every instruction passes control on. -/
inductive Forward : Code → Prop
  | nil : Forward []
  | next {i c} (hf : i.fallsThrough = true) (hd : i.dest? = none) (h : Forward c) : Forward (i :: c)
  | branch {i dest c} (hd : i.dest? = some dest) (hl : dest.label ∈ marks c) (h : Forward c) : Forward (i :: c)

section
variable {level : Label → Nat} {code c c' : Code} {ds : List Nat} {i : Instr} {dest : Dest} {b : Bool}
  {d d' k m n n' p q : Nat}

theorem LabelsIn.own (h : LabelsIn n n' code) : OwnLabels code := ⟨h.nodup, h.closed⟩

theorem Forward.append (h : Forward c) (h' : Forward c') : Forward (c ++ c') := by
  induction h with
  | nil => exact h'
  | next hf hd _ ih => exact .next hf hd ih
  | branch hd hl _ ih => exact .branch hd (by rw [List.append_eq, marks_append]; exact List.mem_append_left _ hl) ih

theorem Forward.one (hf : i.fallsThrough = true) (hd : i.dest? = none) : Forward [i] := .next hf hd .nil

private theorem Forward.mem_marks (h : Forward code) (hi : code[p]? = some i) (hd : i.dest? = some dest) :
    dest.label ∈ marks (code.drop (p + 1)) := by
  induction h generalizing p with
  | nil => cases hi
  | next _ hn _ ih =>
    cases p with
    | zero =>
      cases hi
      cases hn.symm.trans hd
    | succ p => exact ih hi
  | branch hd' hl _ ih =>
    cases p with
    | zero =>
      cases hi
      cases hd'.symm.trans hd
      exact hl
    | succ p => exact ih hi

/-- The mark that a branch goes to is behind it. -/
private theorem Forward.lt (h : Forward code) (hn : (marks code).Nodup) (hi : code[p]? = some i)
    (hd : i.dest? = some dest) (hm : code[m]? = some (.mark dest.label)) : p < m := by
  by_contra hle
  have hfront : dest.label ∈ marks (code.take (p + 1)) :=
    Machine.mem_marks.mpr ⟨_, standsAt_iff.mpr ⟨m, by rw [List.getElem?_take_of_lt (by omega)]; exact hm, rfl⟩⟩
  rw [← List.take_append_drop (p + 1) code, marks_append] at hn
  exact (List.nodup_append.mp hn).2.2 _ hfront _ (h.mem_marks hi hd) rfl

/-- Control leaves every instruction of forward code, and goes on behind it. -/
private theorem Forward.moves (h : Forward code) (hn : (marks code).Nodup) (hi : code[p]? = some i)
    (hm : i.isMark = false) : (∃ b q, Moves code p b q) ∧ ∀ b q, Moves code p b q → p < q := by
  constructor
  · cases hd : i.dest? with
    | some dest =>
      have hmem := h.mem_marks hi hd
      obtain ⟨_, hs⟩ := Machine.mem_marks.mp hmem
      obtain ⟨m, hmark, -⟩ := standsAt_iff.mp hs
      rw [List.getElem?_drop] at hmark
      obtain ⟨q, hq⟩ := exists_lands (Nat.le_of_lt (List.getElem?_eq_some_iff.mp hmark).1)
      exact ⟨true, q, .jump hi hd hmark hq⟩
    | none =>
      have hf : i.fallsThrough = true := by
        clear hn hm
        induction h generalizing p with
        | nil => cases hi
        | next hf _ _ ih =>
          cases p with
          | zero => cases hi; exact hf
          | succ p => exact ih hi
        | branch hd' _ _ ih =>
          cases p with
          | zero => cases hi; cases hd.symm.trans hd'
          | succ p => exact ih hi
      obtain ⟨q, hq⟩ : ∃ q, Lands code (p + 1) q := exists_lands (List.getElem?_eq_some_iff.mp hi).1
      exact ⟨false, q, .next hi hm hf hq⟩
  · intro b q hq
    cases hq with
    | next hj _ _ hq => exact hq.le
    | jump hj hd hmark hq =>
      have := h.lt hn hj hd hmark
      have := hq.le
      omega

/-- An instruction of code with depths has those in front of it and behind it. -/
private theorem Deep.suits (h : Deep level d code ds d') (hi : code[p]? = some i) (hm : i.isMark = false)
    (hk : (ds ++ [d'])[realsBefore code p]? = some k) :
    ∃ e, Suits level i k e ∧ (ds ++ [d'])[realsBefore code p + 1]? = some e := by
  induction h generalizing p with
  | nil => cases hi
  | mark _ _ ih =>
    cases p with
    | zero =>
      cases hi
      cases hm
    | succ p => exact ih hi hk
  | @instr d e j c ds d' hs hc ih =>
    have hsucc (p : Nat) : realsBefore (j :: c) (p + 1) = realsBefore c p + 1 := realCount_cons hs.real
    cases p with
    | zero =>
      cases hi
      cases hk
      exact ⟨e, hs, hc.head⟩
    | succ p =>
      rw [hsucc] at hk ⊢
      exact ih hi hk

/-- Wherever control goes, it finds the depth that the code has there. -/
private theorem Deep.moves (h : Deep level d code ds d') (hi : code[p]? = some i)
    (hk : (ds ++ [d'])[realsBefore code p]? = some k) (hq : Moves code p b q) :
    (ds ++ [d'])[realsBefore code q]? = some (i.depthAfter k) := by
  obtain ⟨j, hj, hm⟩ := hq.real
  obtain rfl := Option.some.inj (hj.symm.trans hi)
  obtain ⟨e, hs, he⟩ := h.suits hi hm hk
  cases hq with
  | next hj _ hf hq =>
    obtain rfl := Option.some.inj (hj.symm.trans hi)
    rw [← hq.realsBefore_eq, realsBefore_real hi hm, he, hs.next hf]
  | jump hj hd hmark hq =>
    obtain rfl := Option.some.inj (hj.symm.trans hi)
    rw [← hq.realsBefore_eq, h.level_eq (standsAt_iff.mpr ⟨_, hmark, rfl⟩), hs.branch _ hd]

private theorem Deep.end_eq (h : Deep level d code ds d') (hk : (ds ++ [d'])[realsBefore code code.length]? = some k) :
    k = d' := by
  rw [realsBefore_length, ← h.length_eq] at hk
  simpa using hk.symm

/-- Code that goes forward and can be entered with an empty stack is passed from every depth: the values that are there
stay, and those that the code leaves come on top. -/
theorem Deep.arrives (h : Deep level 0 code ds d') (hf : Forward code) (hn : (marks code).Nodup) (low : Nat) :
    ∃ p, Lands code 0 p ∧ Arrives code low (low + d') p low := by
  have hall : ∀ p k, Stops code p → (ds ++ [d'])[realsBefore code p]? = some k →
      Arrives code low (low + d') p (low + k) := by
    -- The rest of the code gets shorter with every move.
    intro p
    induction hrest : code.length - p using Nat.strongRecOn generalizing p with
    | _ rest ih =>
      rintro k (rfl | ⟨i, hi, hm⟩) hk
      · obtain rfl := h.end_eq hk
        exact .done
      · obtain ⟨e, hs, -⟩ := h.suits hi hm hk
        have hlow : low + i.depthAfter k = i.depthAfter (low + k) := by
          have := hs.enough
          simp only [Instr.depthAfter]
          omega
        have henough : low + i.pops ≤ low + k := Nat.add_le_add_left hs.enough low
        refine .step hi hm henough (hf.moves hn hi hm).1 fun b q hq => ?_
        have hlt := (hf.moves hn hi hm).2 b q hq
        have hp := (List.getElem?_eq_some_iff.mp hi).1
        exact hlow ▸ ih (code.length - q) (by omega) q rfl _ hq.stops (h.moves hi hk hq)
  obtain ⟨p, hp⟩ := exists_lands (Nat.zero_le code.length)
  have hk : (ds ++ [d'])[realsBefore code p]? = some 0 := by
    rw [← hp.realsBefore_eq]
    exact h.head
  exact ⟨p, hp, hall p 0 hp.stops hk⟩

/-- Control that enters code with an empty stack finds the depth of every place, so that of the end behind the code. -/
theorem Deep.walks (h : Deep level 0 code ds d') (hw : Walks code p k) :
    (ds ++ [d'])[realsBefore code p]? = some k := by
  induction hw with
  | start hp =>
    rw [← hp.realsBefore_eq]
    exact h.head
  | step _ hi hq ih => exact h.moves hi ih hq

theorem Deep.walks_end (h : Deep level 0 code ds d') (hw : Walks code code.length k) : k = d' := h.end_eq (h.walks hw)

end

end WhileStack.Machine
