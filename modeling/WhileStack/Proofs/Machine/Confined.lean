import WhileStack.Proofs.Resolution

/-! Control stays inside a chunk that closes, wherever the chunk stands: every way from its start leads to an instruction
of it, and so none to the place behind it. -/
namespace WhileStack.Machine

section
variable {code front a b back : Code} {i j : Instr} {l : Label} {m p q : Nat} {way : Bool} {bs : List Bool}

private theorem mem_marks_of_getElem? (h : code[m]? = some (.mark l)) : l ∈ marks code :=
  mem_marks.mpr ⟨_, standsAt_iff.mpr ⟨m, h, rfl⟩⟩

/-- A mark that is placed once in the code, and placed in a part of it, stands in that part. -/
private theorem mark_between (hn : (marks (front ++ code ++ back)).Nodup) (hl : l ∈ marks code)
    (hm : (front ++ code ++ back)[m]? = some (.mark l)) : front.length ≤ m ∧ m < front.length + code.length := by
  rw [marks_append, marks_append] at hn
  have hfront : l ∉ marks front := by
    intro h
    exact (List.nodup_append.mp (List.nodup_append.mp hn).1).2.2 l h l hl rfl
  have hback : l ∉ marks back := by
    intro h
    exact (List.nodup_append.mp hn).2.2 l (List.mem_append_right _ hl) l h rfl
  constructor
  · by_contra hlt
    apply hfront
    rw [List.append_assoc, List.getElem?_append_left (by omega)] at hm
    exact mem_marks_of_getElem? hm
  · by_contra hge
    apply hback
    rw [List.getElem?_append_right (by simp; omega)] at hm
    exact mem_marks_of_getElem? hm

/-- Control has not come past the last instruction of a chunk, and is not in front of the chunk. -/
private def Inside (front a : Code) (p : Nat) : Prop := front.length ≤ p ∧ p ≤ front.length + a.length

private theorem getElem?_last : (front ++ (a ++ i :: b) ++ back)[front.length + a.length]? = some i := by simp

private theorem getElem?_inside (hp : Inside front a p) (hi : (front ++ (a ++ i :: b) ++ back)[p]? = some j) :
    j ∈ a ++ i :: b := by
  obtain ⟨h₁, h₂⟩ := hp
  rw [List.getElem?_append_left (by simp; omega), List.getElem?_append_right h₁] at hi
  exact List.mem_of_getElem? hi

section
variable (hm : i.isMark = false)
include hm

/-- The last instruction is none that control lands behind. -/
private theorem Inside.lands (hp : Inside front a p) (hq : Lands (front ++ (a ++ i :: b) ++ back) p q) :
    Inside front a q := by
  refine ⟨Nat.le_trans hp.1 hq.le, ?_⟩
  by_contra hgt
  obtain ⟨l, hl⟩ := hq.marks (front.length + a.length) hp.2 (by omega)
  obtain rfl := Option.some.inj (getElem?_last.symm.trans hl)
  cases hm

variable (hf : i.fallsThrough = false) (hn : (marks (front ++ (a ++ i :: b) ++ back)).Nodup)
  (hc : ∀ l ∈ branchLabels (a ++ i :: b), l ∈ marks (a ++ i :: b)) (hb : ∀ l ∈ branchLabels (a ++ i :: b), l ∉ marks b)
include hf hn hc hb

/-- One move: the last instruction is not passed, and branches go to marks in front of it. -/
private theorem Inside.moves (hp : Inside front a p) (hq : Moves (front ++ (a ++ i :: b) ++ back) p way q) :
    Inside front a q := by
  cases hq with
  | @next j _ hj _ hfj hq =>
    have hne : p ≠ front.length + a.length := by
      intro he
      rw [he] at hj
      obtain rfl := Option.some.inj (getElem?_last.symm.trans hj)
      rw [hf] at hfj
      cases hfj
    have hle := hp.2
    exact Inside.lands hm ⟨Nat.le_succ_of_le hp.1, by omega⟩ hq
  | @jump j dest m _ hj hd hmark hq =>
    have hl : dest.label ∈ branchLabels (a ++ i :: b) :=
      List.mem_filterMap.mpr ⟨j, getElem?_inside hp hj, by rw [hd]; rfl⟩
    have ha : dest.label ∈ marks a := by
      have h := hc _ hl
      rw [marks_append, marks_cons hm, List.mem_append] at h
      exact h.resolve_right (hb _ hl)
    have hshift : front ++ (a ++ i :: b) ++ back = front ++ a ++ (i :: b ++ back) := by simp
    obtain ⟨h₁, h₂⟩ := mark_between (hshift ▸ hn) ha (hshift ▸ hmark)
    exact Inside.lands hm ⟨h₁, Nat.le_of_lt h₂⟩ hq

/-- And so any number of moves. -/
private theorem Inside.travels (hp : Inside front a p) (hq : Travels (Moves (front ++ (a ++ i :: b) ++ back)) p bs q) :
    Inside front a q := by
  induction hq with
  | here => exact hp
  | on hs _ ih => exact ih (hp.moves hm hf hn hc hb hs)

end

/-- No way of control from the start of a chunk that closes leaves the chunk. -/
theorem Closes.confines (h : Closes code) (hc : ∀ l ∈ branchLabels code, l ∈ marks code)
    (hn : (marks (front ++ code ++ back)).Nodup) (hp : Lands (front ++ code ++ back) front.length p)
    (hq : Travels (Moves (front ++ code ++ back)) p bs q) : front.length ≤ q ∧ q < front.length + code.length := by
  obtain ⟨a, i, b, rfl, hm, hf, -, hb⟩ := h
  have hstart : Inside front a p := Inside.lands hm ⟨Nat.le_refl _, Nat.le_add_right ..⟩ hp
  obtain ⟨h₁, h₂⟩ := hstart.travels hm hf hn hc hb hq
  refine ⟨h₁, ?_⟩
  rw [List.length_append, List.length_cons]
  omega

theorem Travels.stops (hp : Stops code p) (hq : Travels (Moves code) p bs q) : Stops code q := by
  induction hq with
  | here => exact hp
  | on hs _ ih => exact ih hs.stops

/-- The same of resolved code, where the chunk takes as many places as it has instructions that are not marks. -/
theorem Closes.confines_resolved {full : Code} {t : Nat} (h : Closes code) (hc : ∀ l ∈ branchLabels code, l ∈ marks code)
    (hr : resolve (front ++ code ++ back) = .ok full)
    (ht : Travels (fun n way t => Flows full.toArray n way (t : Nat)) (realCount front) bs t) :
    realCount front ≤ t ∧ t < realCount front + realCount code := by
  have hn := (resolve_eq_ok hr).1.once
  obtain ⟨p, hp⟩ : ∃ p, Lands (front ++ code ++ back) front.length p := exists_lands (by simp)
  have hstart : realsBefore (front ++ code ++ back) p = realCount front := by
    rw [← hp.realsBefore_eq, realsBefore, List.append_assoc, List.take_left]
  rw [← hstart] at ht
  obtain ⟨q, hq, rfl⟩ := ((resolve_sameControl hr).run p hp.stops bs t).mp ht
  obtain ⟨h₁, h₂⟩ := h.confines hc hn hp hq
  constructor
  · rw [← hstart, ← hp.realsBefore_eq]
    exact realsBefore_mono h₁
  · have hreal : ∃ j, (front ++ code ++ back)[q]? = some j ∧ j.isMark = false := by
      refine (hq.stops hp.stops).resolve_left fun he => ?_
      rw [he, List.length_append, List.length_append] at h₂
      omega
    obtain ⟨j, hj, hm⟩ := hreal
    have hlast : realsBefore (front ++ code ++ back) (front.length + code.length) = realCount front + realCount code := by
      rw [realsBefore, ← List.length_append, List.take_left, realCount_append]
    have := realsBefore_real hj hm
    have : realsBefore (front ++ code ++ back) (q + 1) ≤ _ := realsBefore_mono h₂
    omega

end

end WhileStack.Machine
