import WhileStack.Machine.Label
import Mathlib.Data.List.Forall2

/-! Where resolved code has its instructions: every mark stands for an index, and every other instruction is found at
its own, with a branch going to the index of its mark. -/
namespace WhileStack.Machine

/-- The labels that a code places, in order. -/
def marks : Code → List Label
  | [] => []
  | .mark l :: rest => l :: marks rest
  | _ :: rest => marks rest

/-- The number of instructions that are not marks. -/
def realCount : Code → Nat
  | [] => 0
  | .mark _ :: rest => realCount rest
  | _ :: rest => realCount rest + 1

/-- A branch goes to the index of its label; other instructions stay. -/
def retarget (index : Label → Nat) (i : Instr) : Instr :=
  match i.dest? with
  | none => i
  | some d => i.setDest (.toIndex (index d.label))

@[simp] theorem retarget_goto (index : Label → Nat) (l : Label) :
    retarget index (.goto (.toLabel l)) = .goto (.toIndex (index l)) := rfl

@[simp] theorem retarget_ifeq (index : Label → Nat) (l : Label) :
    retarget index (.ifeq (.toLabel l)) = .ifeq (.toIndex (index l)) := rfl

@[simp] theorem retarget_ifcmp (index : Label → Nat) (c : Cond) (l : Label) :
    retarget index (.ifcmp c (.toLabel l)) = .ifcmp c (.toIndex (index l)) := rfl

/-- The code stands in `full` from the given index on. -/
def Placed (index : Label → Nat) (full : Array Instr) : Nat → Code → Prop
  | _, [] => True
  | n, .mark l :: rest => index l = n ∧ Placed index full n rest
  | n, i :: rest => full[n]? = some (retarget index i) ∧ Placed index full (n + 1) rest

section
variable {i : Instr} {code c c' : Code} {l : Label} {n m : Nat} {index : Label → Nat} {full : Array Instr}

theorem isMark_of_dest? {dest : Dest} (h : i.dest? = some dest) : i.isMark = false := by
  cases i <;> first | rfl | cases h

@[simp] theorem marks_nil : marks [] = [] := rfl

@[simp] theorem marks_mark : marks (.mark l :: c) = l :: marks c := rfl

theorem marks_cons (hi : i.isMark = false) : marks (i :: c) = marks c := by
  cases i <;> first | rfl | simp [Instr.isMark] at hi

theorem realCount_cons (hi : i.isMark = false) : realCount (i :: c) = realCount c + 1 := by
  cases i <;> first | rfl | simp [Instr.isMark] at hi

@[simp] theorem marks_append : marks (c ++ c') = marks c ++ marks c' := by
  induction c with
  | nil => rfl
  | cons i c ih => cases i <;> simp [marks, ih]

@[simp] theorem realCount_append : realCount (c ++ c') = realCount c + realCount c' := by
  induction c with
  | nil => simp [realCount]
  | cons i c ih => cases i <;> simp [realCount, ih] <;> omega

theorem realCount_snoc (hi : i.isMark = false) : realCount (c ++ [i]) = realCount c + 1 := by
  rw [realCount_append, realCount_cons hi]
  rfl

theorem realCount_eq_length : realCount c = (c.filter fun i => !i.isMark).length := by
  induction c with
  | nil => rfl
  | cons i c ih => cases i <;> simp [realCount, Instr.isMark, ih]

@[simp] theorem placed_nil : Placed index full n [] := trivial

@[simp] theorem placed_mark : Placed index full n (.mark l :: c) ↔ index l = n ∧ Placed index full n c := Iff.rfl

theorem placed_cons (hi : i.isMark = false) :
    Placed index full n (i :: c) ↔ full[n]? = some (retarget index i) ∧ Placed index full (n + 1) c := by
  cases i <;> first | exact Iff.rfl | simp [Instr.isMark] at hi

@[simp] theorem placed_append :
    Placed index full n (c ++ c') ↔ Placed index full n c ∧ Placed index full (n + realCount c) c' := by
  induction c generalizing n with
  | nil => simp [realCount]
  | cons i c ih =>
    cases hi : i.isMark with
    | false =>
      rw [List.cons_append, placed_cons hi, placed_cons hi, ih, realCount_cons hi, and_assoc]
      rw [Nat.add_comm (realCount c) 1, Nat.add_assoc]
    | true =>
      cases i <;> simp [Instr.isMark] at hi
      simp [ih, realCount, and_assoc]

/-- A label stands behind some instructions of the code. -/
def StandsAt (code : Code) (l : Label) (n : Nat) : Prop := ∃ c c', code = c ++ .mark l :: c' ∧ n = realCount c

theorem standsAt_mark {k : Label} : StandsAt (.mark k :: code) l n ↔ (l = k ∧ n = 0) ∨ StandsAt code l n := by
  constructor
  · rintro ⟨c, c', h, rfl⟩
    rcases List.cons_eq_append_iff.mp h with ⟨rfl, h⟩ | ⟨c, rfl, h'⟩
    · cases h
      exact .inl ⟨rfl, rfl⟩
    · exact .inr ⟨c, c', h', rfl⟩
  · rintro (⟨rfl, rfl⟩ | ⟨c, c', rfl, rfl⟩)
    · exact ⟨[], code, rfl, rfl⟩
    · exact ⟨.mark k :: c, c', rfl, rfl⟩

theorem standsAt_cons (hi : i.isMark = false) :
    StandsAt (i :: code) l n ↔ ∃ m, n = m + 1 ∧ StandsAt code l m := by
  constructor
  · rintro ⟨c, c', h, rfl⟩
    rcases List.cons_eq_append_iff.mp h with ⟨rfl, h⟩ | ⟨c, rfl, h'⟩
    · cases h
      simp [Instr.isMark] at hi
    · exact ⟨realCount c, realCount_cons hi, c, c', h', rfl⟩
  · rintro ⟨m, rfl, c, c', rfl, rfl⟩
    exact ⟨i :: c, c', rfl, (realCount_cons hi).symm⟩

theorem mem_marks : l ∈ marks code ↔ ∃ n, StandsAt code l n := by
  induction code with
  | nil => simp [StandsAt]
  | cons i code ih =>
    cases hi : i.isMark with
    | false => simp only [marks_cons hi, ih, standsAt_cons hi]; grind
    | true =>
      cases i <;> simp [Instr.isMark] at hi
      simp only [marks_mark, List.mem_cons, ih, standsAt_mark]
      grind

end

section
variable {code : Code} {l : Label} {n size : Nat} {found found' : List (Label × Nat)}

private theorem lookup_cons_iff {k : Label} {m m' : Nat} (hk : found.lookup k = none) :
    ((k, m) :: found).lookup l = some m' ↔ (l = k ∧ m' = m) ∨ found.lookup l = some m' := by
  by_cases hl : l = k
  · subst hl
    simp [hk, eq_comm]
  · simp [List.lookup_cons, beq_false_of_ne hl, hl]

/-- What is found are the labels of the code with the instructions in front of them. -/
theorem places_found (h : places n found code = .ok (found', size)) :
    size = n + realCount code ∧
      ∀ l m, found'.lookup l = some m ↔ found.lookup l = some m ∨ ∃ k, m = n + k ∧ StandsAt code l k := by
  induction code generalizing n found with
  | nil =>
    simp only [places, Except.ok.injEq, Prod.mk.injEq] at h
    obtain ⟨rfl, rfl⟩ := h
    exact ⟨rfl, fun l m => by simp [StandsAt]⟩
  | cons i code ih =>
    cases hi : i.isMark with
    | true =>
      cases i with
      | mark k =>
        simp only [places] at h
        split at h
        · cases h
        · rename_i hk
          obtain ⟨hs, hf⟩ := ih h
          refine ⟨hs, fun l m => ?_⟩
          simp only [hf, standsAt_mark, lookup_cons_iff (Option.not_isSome_iff_eq_none.mp hk)]
          constructor
          · rintro ((⟨rfl, rfl⟩ | h) | ⟨j, rfl, h⟩)
            · exact .inr ⟨0, rfl, .inl ⟨rfl, rfl⟩⟩
            · exact .inl h
            · exact .inr ⟨j, rfl, .inr h⟩
          · rintro (h | ⟨j, rfl, ⟨rfl, rfl⟩ | h⟩)
            · exact .inl (.inr h)
            · exact .inl (.inl ⟨rfl, rfl⟩)
            · exact .inr ⟨j, rfl, h⟩
      | _ => simp [Instr.isMark] at hi
    | false =>
      have h' : places (n + 1) found code = .ok (found', size) := by
        cases i <;> first | exact h | simp [Instr.isMark] at hi
      obtain ⟨hs, hf⟩ := ih h'
      refine ⟨by rw [hs, realCount_cons hi]; omega, fun l m => ?_⟩
      simp only [hf, standsAt_cons hi]
      refine or_congr_right ⟨?_, ?_⟩
      · rintro ⟨j, rfl, h⟩
        exact ⟨j + 1, by omega, j, rfl, h⟩
      · rintro ⟨_, rfl, j, rfl, h⟩
        exact ⟨j, by omega, h⟩

theorem places_ok (hn : (marks code).Nodup) (hf : ∀ l ∈ marks code, found.lookup l = none) :
    ∃ r, places n found code = .ok r := by
  induction code generalizing n found with
  | nil => exact ⟨_, rfl⟩
  | cons i code ih =>
    cases hi : i.isMark with
    | true =>
      cases i with
      | mark k =>
        simp only [marks_mark, List.nodup_cons] at hn
        have hk : found.lookup k = none := hf k (by simp)
        have hf' : ∀ l ∈ marks code, ((k, n) :: found).lookup l = none := fun l hl => by
          have hne : l ≠ k := fun e => hn.1 (e ▸ hl)
          simp [List.lookup_cons, beq_false_of_ne hne, hf l (by simp [hl])]
        obtain ⟨r, hr⟩ := ih (n := n) hn.2 hf'
        exact ⟨r, by simp [places, hk, hr]⟩
      | _ => simp [Instr.isMark] at hi
    | false =>
      rw [marks_cons hi] at hn hf
      obtain ⟨r, hr⟩ := ih (n := n + 1) hn hf
      exact ⟨r, by cases i <;> first | exact hr | simp [Instr.isMark] at hi⟩

theorem mapM_eq_ok {α β ε : Type} {f : α → Except ε β} {xs : List α} {ys : List β} :
    xs.mapM f = .ok ys ↔ List.Forall₂ (fun x y => f x = .ok y) xs ys := by
  induction xs generalizing ys with
  | nil => simp [pure, Except.pure, eq_comm]
  | cons x xs ih =>
    cases hx : f x with
    | error e => simp [List.mapM_cons, hx, bind, Except.bind, List.forall₂_cons_left_iff]
    | ok y =>
      rcases hxs : xs.mapM f with e | zs
      · simp [List.mapM_cons, hx, hxs, bind, Except.bind, List.forall₂_cons_left_iff, ← ih]
      · have := ih.mp hxs
        simp only [List.mapM_cons, hx, hxs, bind, Except.bind, pure, Except.pure, Except.ok.injEq,
          List.forall₂_cons_left_iff, ← ih]
        grind

theorem exists_of_forall₂ {α β : Type} {R : α → β → Prop} {xs : List α} {ys : List β} (h : List.Forall₂ R xs ys) {x : α}
    (hx : x ∈ xs) : ∃ y ∈ ys, R x y := by
  induction h with
  | nil => cases hx
  | cons hr _ ih =>
    rcases List.mem_cons.mp hx with rfl | hx
    · exact ⟨_, List.mem_cons_self .., hr⟩
    · obtain ⟨y, hy, hr⟩ := ih hx
      exact ⟨y, List.mem_cons_of_mem _ hy, hr⟩

/-- The index that was found for a label. -/
def indexOf (found : List (Label × Nat)) (l : Label) : Nat := (found.lookup l).getD 0

private theorem relocate_eq_ok {i j : Instr} (h : relocate found size i = .ok j) : j = retarget (indexOf found) i := by
  unfold relocate at h
  split at h
  · simp_all [retarget]
  · rename_i d hd
    split at h
    · cases h
    · rename_i m hm
      split at h
      · cases h
        simp [retarget, hd, indexOf, hm]
      · cases h

private theorem placed_of_relocated {index : Label → Nat} (full₁ : Code) {full₂ : Code}
    (hr : List.Forall₂ (fun i j => j = retarget index i) (code.filter fun i => !i.isMark) full₂)
    (hi : ∀ l k, StandsAt code l k → index l = full₁.length + k) :
    Placed index (full₁ ++ full₂).toArray full₁.length code := by
  induction code generalizing full₁ full₂ with
  | nil => trivial
  | cons i code ih =>
    cases him : i.isMark with
    | true =>
      cases i with
      | mark k =>
        rw [List.filter_cons_of_neg (by simp [Instr.isMark])] at hr
        exact ⟨hi k 0 (standsAt_mark.mpr (.inl ⟨rfl, rfl⟩)),
          ih full₁ hr fun l j hj => hi l j (standsAt_mark.mpr (.inr hj))⟩
      | _ => simp [Instr.isMark] at him
    | false =>
      rw [List.filter_cons_of_pos (by simp [him])] at hr
      obtain ⟨j, full₂, rfl, hr', rfl⟩ := List.forall₂_cons_left_iff.mp hr
      rw [placed_cons him]
      refine ⟨by simp, ?_⟩
      have := ih (full₁ ++ [retarget index i]) hr' fun l k hk => by
        rw [hi l (k + 1) ((standsAt_cons him).mpr ⟨k, rfl, hk⟩)]
        simp; omega
      simpa using this

/-- Resolved code has every instruction in its place. -/
theorem resolve_placed {full : Code} (h : resolve code = .ok full) :
    ∃ index, full.length = realCount code ∧ Placed index full.toArray 0 code := by
  simp only [resolve, bind, Except.bind] at h
  split at h
  · cases h
  · rename_i r hp
    obtain ⟨found, size⟩ := r
    obtain ⟨-, hf⟩ := places_found hp
    split at h
    · cases h
    · have hr := (mapM_eq_ok.mp h).imp fun _ _ => relocate_eq_ok
      refine ⟨indexOf found, by rw [← hr.length_eq, realCount_eq_length], ?_⟩
      refine placed_of_relocated [] hr fun l k hk => ?_
      have : found.lookup l = some k := (hf l k).mpr (.inr ⟨k, by simp, hk⟩)
      simp [indexOf, this]

/-- Labels can be resolved where each is placed once and each that is used has an instruction behind it. -/
theorem resolve_ok (hn : (marks code).Nodup)
    (hb : ∀ l ∈ branchLabels code, ∃ k, StandsAt code l k ∧ k < realCount code) : ∃ full, resolve code = .ok full := by
  obtain ⟨⟨found, size⟩, hp⟩ : ∃ r, places 0 [] code = .ok r := places_ok hn (by simp)
  obtain ⟨hs, hf⟩ := places_found hp
  have hl : ∀ l ∈ branchLabels code, ∃ k, found.lookup l = some k ∧ k < size := fun l hl => by
    obtain ⟨k, hk, hlt⟩ := hb l hl
    exact ⟨k, (hf l k).mpr (.inr ⟨k, by simp, hk⟩), by omega⟩
  have hnone : (branchLabels code).filter (fun l => (found.lookup l).isNone) = [] := by
    refine List.filter_eq_nil_iff.mpr fun l h => ?_
    obtain ⟨k, hk, -⟩ := hl l h
    simp [hk]
  have hreloc : ∀ i ∈ code.filter (fun i => !i.isMark), ∃ j, relocate found size i = .ok j := fun i hi => by
    unfold relocate
    cases hd : i.dest? with
    | none => exact ⟨i, rfl⟩
    | some d =>
      obtain ⟨k, hk, hlt⟩ := hl d.label (List.mem_filterMap.mpr ⟨i, List.mem_of_mem_filter hi, by simp [hd]⟩)
      exact ⟨i.setDest (.toIndex k), by simp [hk, hlt]⟩
  obtain ⟨full, hfull⟩ : ∃ full, (code.filter fun i => !i.isMark).mapM (relocate found size) = .ok full := by
    generalize (code.filter fun i => !i.isMark) = is at hreloc
    induction is with
    | nil => exact ⟨[], rfl⟩
    | cons i is ih =>
      obtain ⟨j, hj⟩ := hreloc i (by simp)
      obtain ⟨js, hjs⟩ := ih fun i hi => hreloc i (by simp [hi])
      exact ⟨j :: js, mapM_eq_ok.mpr (.cons hj (mapM_eq_ok.mp hjs))⟩
  exact ⟨full, by simp [resolve, bind, Except.bind, hp, hnone, hfull]⟩

end

end WhileStack.Machine
