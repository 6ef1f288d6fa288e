import WhileStack.Proofs.Machine.Closed

/-! Control in code with labels and in the resolved code of it. Control stops at the instructions that are not marks and
at the end; a place of the code corresponds to the index that counts the instructions in front of it. -/
namespace WhileStack.Machine

/-- Branches go to labels of the code itself, each of which is placed once. -/
structure OwnLabels (code : Code) : Prop where
  once : (marks code).Nodup
  placed : ∀ l ∈ branchLabels code, l ∈ marks code

/-- How many instructions that are not marks stand in front of a place. -/
def realsBefore (code : Code) (p : Nat) : Nat := realCount (code.take p)

/-- A place where control stops: an instruction that is not a mark, or the end. -/
def Stops (code : Code) (p : Nat) : Prop := p = code.length ∨ ∃ i, code[p]? = some i ∧ i.isMark = false

/-- Control that comes to one place goes on with another: there are only marks between them. -/
structure Lands (code : Code) (p q : Nat) : Prop where
  le : p ≤ q
  marks : ∀ k, p ≤ k → k < q → ∃ l, code[k]? = some (.mark l)
  stops : Stops code q

/-- Control goes from an instruction to what follows it, or to what follows the mark of its label. -/
inductive Moves (code : Code) (p : Nat) : Bool → Nat → Prop
  | next {i q} (hi : code[p]? = some i) (hm : i.isMark = false) (hf : i.fallsThrough = true)
    (hq : Lands code (p + 1) q) : Moves code p false q
  | jump {i dest m q} (hi : code[p]? = some i) (hd : i.dest? = some dest) (hm : code[m]? = some (.mark dest.label))
    (hq : Lands code m q) : Moves code p true q

/-- Steps one after the other, each the way that is given for it. -/
inductive Travels (step : Nat → Bool → Nat → Prop) : Nat → List Bool → Nat → Prop
  | here {p} : Travels step p [] p
  | on {p p' q b bs} (hs : step p b p') (ht : Travels step p' bs q) : Travels step p (b :: bs) q

section
variable {code : Code} {i : Instr} {l : Label} {n p q : Nat} {b : Bool}

theorem realsBefore_length : realsBefore code code.length = realCount code := by rw [realsBefore, List.take_length]

theorem realsBefore_succ (hi : code[p]? = some i) :
    realsBefore code (p + 1) = realsBefore code p + realCount [i] := by
  rw [realsBefore, List.take_add_one, hi, realCount_append]
  rfl

theorem realsBefore_mark (hi : code[p]? = some (.mark l)) : realsBefore code (p + 1) = realsBefore code p :=
  realsBefore_succ hi

theorem realsBefore_real (hi : code[p]? = some i) (hm : i.isMark = false) :
    realsBefore code (p + 1) = realsBefore code p + 1 := by
  rw [realsBefore_succ hi, realCount_cons hm]
  rfl

theorem realsBefore_mono (h : p ≤ q) : realsBefore code p ≤ realsBefore code q := by
  obtain ⟨k, rfl⟩ := Nat.exists_eq_add_of_le h
  rw [realsBefore, realsBefore, List.take_add, realCount_append]
  exact Nat.le_add_right ..

/-- A label stands where a mark of it is. -/
theorem standsAt_iff : StandsAt code l n ↔ ∃ m, code[m]? = some (.mark l) ∧ n = realsBefore code m := by
  constructor
  · rintro ⟨c, c', rfl, rfl⟩
    exact ⟨c.length, by simp, by simp [realsBefore]⟩
  · rintro ⟨m, hm, rfl⟩
    obtain ⟨hlt, hm⟩ := List.getElem?_eq_some_iff.mp hm
    exact ⟨code.take m, code.drop (m + 1), by rw [← hm, ← List.drop_eq_getElem_cons hlt, List.take_append_drop], rfl⟩

theorem Stops.le (h : Stops code p) : p ≤ code.length := by
  rcases h with rfl | ⟨i, hi, -⟩
  · exact Nat.le_refl _
  · exact Nat.le_of_lt (List.getElem?_eq_some_iff.mp hi).1

/-- The count of the instructions in front tells places apart where control stops. -/
theorem Stops.lt (h : Stops code p) (h' : Stops code q) (hlt : p < q) : realsBefore code p < realsBefore code q := by
  have hq := h'.le
  rcases h with rfl | ⟨i, hi, hm⟩
  · omega
  · have := realsBefore_real hi hm
    have : realsBefore code (p + 1) ≤ realsBefore code q := realsBefore_mono hlt
    omega

theorem Stops.eq (h : Stops code p) (h' : Stops code q) (he : realsBefore code p = realsBefore code q) : p = q := by
  rcases Nat.lt_trichotomy p q with hlt | heq | hlt
  · have := h.lt h' hlt
    omega
  · exact heq
  · have := h'.lt h hlt
    omega

/-- Control stops in front of any number of instructions that the code has. -/
theorem exists_stops (h : n ≤ realCount code) : ∃ p, Stops code p ∧ realsBefore code p = n := by
  induction code generalizing n with
  | nil => exact ⟨0, .inl rfl, by simp [realCount] at h; simp [realsBefore, realCount, h]⟩
  | cons i code ih =>
    have hstops : ∀ p, Stops code p → Stops (i :: code) (p + 1) := by
      rintro p (rfl | ⟨j, hj, hm⟩)
      · exact .inl rfl
      · exact .inr ⟨j, hj, hm⟩
    cases hi : i.isMark with
    | true =>
      cases i with
      | mark l =>
        obtain ⟨p, hp, rfl⟩ := ih h
        exact ⟨p + 1, hstops p hp, rfl⟩
      | _ => simp [Instr.isMark] at hi
    | false =>
      cases n with
      | zero => exact ⟨0, .inr ⟨i, rfl, hi⟩, rfl⟩
      | succ n =>
        rw [realCount_cons hi] at h
        obtain ⟨p, hp, rfl⟩ := ih (Nat.le_of_succ_le_succ h)
        exact ⟨p + 1, hstops p hp, by rw [realsBefore, List.take_succ_cons, realCount_cons hi, realsBefore]⟩

theorem Lands.realsBefore_eq (h : Lands code p q) : realsBefore code p = realsBefore code q := by
  obtain ⟨hle, hm, -⟩ := h
  obtain ⟨k, rfl⟩ := Nat.exists_eq_add_of_le hle
  clear hle
  induction k with
  | zero => rfl
  | succ k ih =>
    obtain ⟨l, hl⟩ := hm (p + k) (by omega) (by omega)
    rw [ih fun j hp hk => hm j hp (by omega), ← Nat.add_assoc, realsBefore_mark hl]

theorem exists_lands {p : Nat} (h : p ≤ code.length) : ∃ q, Lands code p q := by
  by_cases hs : Stops code p
  · exact ⟨p, Nat.le_refl p, fun k hp hq => by omega, hs⟩
  · have hlt : p < code.length := Nat.lt_of_le_of_ne h fun e => hs (.inl e)
    have hi := List.getElem?_eq_getElem hlt
    cases hm : code[p].isMark with
    | false => exact absurd (.inr ⟨_, hi, hm⟩) hs
    | true =>
      obtain ⟨q, hq⟩ : ∃ q, Lands code (p + 1) q := exists_lands hlt
      refine ⟨q, by have := hq.le; omega, fun k hp hk => ?_, hq.stops⟩
      -- The place itself holds a mark; those further on belong to the landing of the next place.
      rcases Nat.eq_or_lt_of_le hp with rfl | hp
      · cases hc : code[p] with
        | mark l => exact ⟨l, hc ▸ hi⟩
        | _ => simp [hc, Instr.isMark] at hm
      · exact hq.marks k hp hk
termination_by code.length - p

theorem Moves.real (h : Moves code p b q) : ∃ i, code[p]? = some i ∧ i.isMark = false := by
  cases h with
  | next hi hm _ _ => exact ⟨_, hi, hm⟩
  | jump hi hd _ _ => exact ⟨_, hi, isMark_of_dest? hd⟩

theorem Moves.stops (h : Moves code p b q) : Stops code q := by
  cases h with
  | next _ _ _ hq => exact hq.stops
  | jump _ _ _ hq => exact hq.stops

end

section
variable {index : Label → Nat} {full : Array Instr} {code : Code} {i : Instr} {n p q : Nat} {b : Bool}

/-- An instruction of placed code is found behind those that stand in front of it. -/
theorem Placed.of_getElem? (h : Placed index full n code) (hi : code[p]? = some i) (hm : i.isMark = false) :
    full[n + realsBefore code p]? = some (retarget index i) := by
  obtain ⟨hlt, hi⟩ := List.getElem?_eq_some_iff.mp hi
  have hc : code = code.take p ++ i :: code.drop (p + 1) := by
    rw [← hi, ← List.drop_eq_getElem_cons hlt, List.take_append_drop]
  rw [hc] at h
  exact ((placed_cons hm).mp (placed_append.mp h).2).1

variable (hp : Placed index full 0 code) (hs : full.size = realCount code)
  (hc : ∀ l ∈ branchLabels code, l ∈ marks code)
include hp hs hc

/-- From a place where control stops, resolved code goes to the indices of the places that the code goes to. -/
theorem Placed.flows_iff (h : Stops code p) {t : Int} :
    Flows full (realsBefore code p) b t ↔ ∃ q, Moves code p b q ∧ t = realsBefore code q := by
  constructor
  · intro hf
    have hreal : ∃ i, code[p]? = some i ∧ i.isMark = false := by
      refine h.resolve_left fun he => ?_
      have hlt : realsBefore code p < full.size := by
        cases hf with
        | next hi _ => exact (Array.getElem?_eq_some_iff.mp hi).1
        | jump hi _ => exact (Array.getElem?_eq_some_iff.mp hi).1
      rw [he, realsBefore_length, hs] at hlt
      exact Nat.lt_irrefl _ hlt
    obtain ⟨i, hi, hm⟩ := hreal
    have hfound := hp.of_getElem? hi hm
    rw [Nat.zero_add] at hfound
    cases hf with
    | next hj hfall =>
      obtain rfl := Option.some.inj (hj.symm.trans hfound)
      rw [retarget_fallsThrough] at hfall
      obtain ⟨q, hq⟩ : ∃ q, Lands code (p + 1) q := exists_lands (List.getElem?_eq_some_iff.mp hi).1
      exact ⟨q, .next hi hm hfall hq, by rw [← hq.realsBefore_eq, realsBefore_real hi hm]⟩
    | jump hj hdest =>
      obtain rfl := Option.some.inj (hj.symm.trans hfound)
      obtain ⟨dest, hd, rfl⟩ := Option.map_eq_some_iff.mp (retarget_dest? index i ▸ hdest)
      obtain ⟨k, hk⟩ := mem_marks.mp (hc dest.label (List.mem_filterMap.mpr ⟨i, List.mem_of_getElem? hi, by simp [hd]⟩))
      have hidx := hp.index_eq hk
      obtain ⟨m, hmark, rfl⟩ := standsAt_iff.mp hk
      obtain ⟨q, hq⟩ := exists_lands (Nat.le_of_lt (List.getElem?_eq_some_iff.mp hmark).1)
      exact ⟨q, .jump hi hd hmark hq, by simp [Dest.toIndex, hidx, hq.realsBefore_eq]⟩
  · rintro ⟨q, hmove, rfl⟩
    cases hmove with
    | next hi hm hfall hq =>
      have hfound := hp.of_getElem? hi hm
      rw [Nat.zero_add] at hfound
      rw [← hq.realsBefore_eq, realsBefore_real hi hm]
      exact .next hfound (by rwa [retarget_fallsThrough])
    | @jump i dest m _ hi hd hmark hq =>
      have hfound := hp.of_getElem? hi (isMark_of_dest? hd)
      rw [Nat.zero_add] at hfound
      have hidx := hp.index_eq (standsAt_iff.mpr ⟨m, hmark, rfl⟩)
      have hf := Flows.jump hfound (by rw [retarget_dest?, hd]; rfl)
      rwa [show (Dest.toIndex (index dest.label)).target = realsBefore code q by
        simp [Dest.toIndex, hidx, hq.realsBefore_eq]] at hf

/-- Control takes the same ways through resolved code. -/
theorem Placed.travels_iff (h : Stops code p) {bs : List Bool} {t : Nat} :
    Travels (fun n b t => Flows full n b (t : Nat)) (realsBefore code p) bs t ↔
      ∃ q, Travels (Moves code) p bs q ∧ t = realsBefore code q := by
  induction bs generalizing p with
  | nil =>
    constructor
    · rintro ⟨⟩
      exact ⟨p, .here, rfl⟩
    · rintro ⟨q, ⟨⟩, rfl⟩
      exact .here
  | cons b bs ih =>
    constructor
    · rintro (_ | ⟨hf, ht⟩)
      obtain ⟨p', hmove, he⟩ := (hp.flows_iff hs hc h).mp hf
      obtain rfl := Int.ofNat_inj.mp he
      obtain ⟨q, hq, rfl⟩ := (ih hmove.stops).mp ht
      exact ⟨q, .on hmove hq, rfl⟩
    · rintro ⟨q, _ | ⟨hmove, hq⟩, rfl⟩
      exact .on ((hp.flows_iff hs hc h).mpr ⟨_, hmove, rfl⟩) ((ih hmove.stops).mpr ⟨q, hq, rfl⟩)

end

end WhileStack.Machine
