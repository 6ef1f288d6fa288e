import WhileStack.Proofs.Machine.Natural
import WhileStack.Proofs.Machine.Placement

/-! Stack depth along code with labels, and chunks of code that use labels of their own only. -/
namespace WhileStack.Machine

/-- An instruction that is reached at depth `d` and followed by one at depth `e`, where every label has a depth. -/
structure Suits (level : Label → Nat) (i : Instr) (d e : Nat) : Prop where
  real : i.isMark = false
  takes_eq : i.takes = i.pops
  enough : i.pops ≤ d
  branch : ∀ dest, i.dest? = some dest → level dest.label = i.depthAfter d
  next : i.fallsThrough = true → e = i.depthAfter d
  leaves : i.isReturn = true → d = i.pops

/-- The code is reached at one depth and left at another; the list holds the depth in front of each instruction. -/
inductive Deep (level : Label → Nat) : Nat → Code → List Nat → Nat → Prop where
  | nil {d} : Deep level d [] [] d
  | mark {d l c ds d'} : level l = d → Deep level d c ds d' → Deep level d (.mark l :: c) ds d'
  | instr {d e i c ds d'} : Suits level i d e → Deep level e c ds d' → Deep level d (i :: c) (d :: ds) d'

section
variable {level : Label → Nat} {c c' code : Code} {ds ds' : List Nat} {d d' e : Nat} {i : Instr} {l : Label}

theorem Deep.append (h : Deep level d c ds e) (h' : Deep level e c' ds' d') : Deep level d (c ++ c') (ds ++ ds') d' := by
  induction h with
  | nil => exact h'
  | mark hl _ ih => exact .mark hl (ih h')
  | instr hs _ ih => exact .instr hs (ih h')

theorem Deep.length_eq (h : Deep level d c ds d') : ds.length = realCount c := by
  induction h with
  | nil => rfl
  | mark _ _ ih => exact ih
  | instr hs _ ih => rw [realCount_cons hs.real, List.length_cons, ih]

theorem Deep.one (h : Suits level i d e) : Deep level d [i] [d] e := .instr h .nil

/-- An instruction that neither branches nor leaves. -/
theorem Suits.plain (hm : i.isMark = false) (hd : i.dest? = none) (hr : i.isReturn = false) (ht : i.takes = i.pops)
    (hp : i.pops ≤ d) (he : e = i.depthAfter d) : Suits level i d e :=
  ⟨hm, ht, hp, fun _ h => by simp [hd] at h, fun _ => he, fun h => by simp [hr] at h⟩

theorem Deep.head (h : Deep level d c ds d') : (ds ++ [d'])[0]? = some d := by
  induction h with
  | nil => rfl
  | mark _ _ ih => exact ih
  | instr => rfl

/-- Each instruction of placed code is found with the depth in front of it and the one behind it. -/
theorem Deep.found {index : Label → Nat} {full : Array Instr} {n k : Nat} {j : Instr} (h : Deep level d c ds d')
    (hp : Placed index full n c) (hk : k < realCount c) (hj : full[n + k]? = some j) :
    ∃ i d e, j = retarget index i ∧ (ds ++ [d'])[k]? = some d ∧ (ds ++ [d'])[k + 1]? = some e ∧ Suits level i d e ∧
      i ∈ c := by
  induction h generalizing n k with
  | nil => simp [realCount] at hk
  | mark _ _ ih =>
    obtain ⟨i, d, e, h₁, h₂, h₃, h₄, h₅⟩ := ih (placed_mark.mp hp).2 hk hj
    exact ⟨i, d, e, h₁, h₂, h₃, h₄, by simp [h₅]⟩
  | @instr d e i c ds d' hs hc ih =>
    obtain ⟨hi, hp⟩ := (placed_cons hs.real).mp hp
    cases k with
    | zero =>
      rw [Nat.add_zero, hi] at hj
      cases hj
      exact ⟨i, d, e, rfl, rfl, by simpa using hc.head, hs, by simp⟩
    | succ k =>
      rw [realCount_cons hs.real] at hk
      obtain ⟨i', d, e, h₁, h₂, h₃, h₄, h₅⟩ := ih (k := k) hp (by omega) (by rw [← hj]; congr 1; omega)
      exact ⟨i', d, e, h₁, h₂, h₃, h₄, by simp [h₅]⟩

/-- A label has the depth of the place where it stands. -/
theorem Deep.level_eq {k : Nat} (h : Deep level d c ds d') (hl : StandsAt c l k) : (ds ++ [d'])[k]? = some (level l) := by
  induction h generalizing k with
  | nil => obtain ⟨c, c', hc, -⟩ := hl; simp at hc
  | @mark d m c ds d' hm hc ih =>
    rcases standsAt_mark.mp hl with ⟨rfl, rfl⟩ | hl
    · exact hm ▸ hc.head
    · exact ih hl
  | instr hs _ ih =>
    obtain ⟨k, rfl, hl'⟩ := (standsAt_cons hs.real).mp hl
    simpa using ih hl'

end

/-- Labels between two counts, each placed once; branches go to no others. -/
structure LabelsIn (n n' : Nat) (code : Code) : Prop where
  le : n ≤ n'
  nodup : (marks code).Nodup
  range : ∀ l : Int, l ∈ marks code → n < l ∧ l ≤ n'
  closed : ∀ l ∈ branchLabels code, l ∈ marks code

/-- The labels between two counts can be given depths for which something holds, whatever depths other labels have. -/
def Levels (n n' : Nat) (P : (Label → Nat) → Prop) : Prop :=
  ∃ own : Label → Nat, ∀ level : Label → Nat, (∀ l : Int, n < l → l ≤ n' → level l = own l) → P level

namespace Levels
variable {n n₁ n₂ k : Nat} {P Q : (Label → Nat) → Prop}

theorem imp (h : Levels n n₁ P) (hi : ∀ level, P level → Q level) : Levels n n₁ Q := by
  obtain ⟨own, ho⟩ := h
  exact ⟨own, fun level hl => hi level (ho level hl)⟩

theorem and (h : Levels n n₁ P) (h' : Levels n₁ n₂ Q) (hn : n ≤ n₁) (hn' : n₁ ≤ n₂) :
    Levels n n₂ fun level => P level ∧ Q level := by
  obtain ⟨own, ho⟩ := h
  obtain ⟨own', ho'⟩ := h'
  refine ⟨fun l : Int => if l ≤ n₁ then own l else own' l,
    fun level hl => ⟨ho level fun l h₁ h₂ => ?_, ho' level fun l h₁ h₂ => ?_⟩⟩
  · rw [hl l h₁ (by omega)]
    exact if_pos h₂
  · rw [hl l (by omega) h₂]
    exact if_neg (by omega)

/-- The next label gets any depth. -/
theorem next (d : Nat) : Levels n (n + 1) fun level => level ((n + 1 : Nat) : Int) = d :=
  ⟨fun _ => d, fun _ hl => hl _ (by omega) (by omega)⟩

end Levels

/-- Code that goes from one depth to another, whatever depths the labels of other code have. -/
def Sinks (n n' d : Nat) (code : Code) (d' : Nat) : Prop := Levels n n' fun level => ∃ ds, Deep level d code ds d'

section
variable {n n₁ n₂ d d' e : Nat} {c c' : Code} {i : Instr} {l : Label}

@[simp] theorem branchLabels_nil : branchLabels [] = [] := rfl

@[simp] theorem branchLabels_append : branchLabels (c ++ c') = branchLabels c ++ branchLabels c' := by
  simp [branchLabels]

theorem branchLabels_cons : branchLabels (i :: c) = (i.dest?.map Dest.label).toList ++ branchLabels c := by
  cases h : i.dest? <;> simp [branchLabels, h]

theorem LabelsIn.append (h : LabelsIn n n₁ c) (h' : LabelsIn n₁ n₂ c') : LabelsIn n n₂ (c ++ c') where
  le := Nat.le_trans h.le h'.le
  nodup := by
    rw [marks_append]
    refine List.nodup_append.mpr ⟨h.nodup, h'.nodup, fun l hl m hm e => ?_⟩
    subst e
    have := h.range l hl
    have := h'.range l hm
    omega
  range l hl := by
    rcases List.mem_append.mp (marks_append ▸ hl) with hl | hl
    · have := h.range l hl
      have := h'.le
      omega
    · have := h'.range l hl
      have := h.le
      omega
  closed l hl := by
    rw [marks_append, List.mem_append]
    rcases List.mem_append.mp (branchLabels_append ▸ hl) with hl | hl
    · exact .inl (h.closed l hl)
    · exact .inr (h'.closed l hl)

/-- Code without labels. -/
theorem LabelsIn.plain (hm : marks c = []) (hb : branchLabels c = []) : LabelsIn n n c :=
  ⟨Nat.le_refl n, by simp [hm], by simp [hm], by simp [hb]⟩

theorem Sinks.append (h : Sinks n n₁ d c e) (h' : Sinks n₁ n₂ e c' d') (hn : n ≤ n₁) (hn' : n₁ ≤ n₂) :
    Sinks n n₂ d (c ++ c') d' :=
  (Levels.and h h' hn hn').imp fun _ ⟨⟨_, hd⟩, ⟨_, hd'⟩⟩ => ⟨_, hd.append hd'⟩

theorem Sinks.exists_deep (h : Sinks n n₁ d c d') : ∃ level ds, Deep level d c ds d' := by
  obtain ⟨level, ho⟩ := h
  obtain ⟨ds, hd⟩ := ho level fun _ _ _ => rfl
  exact ⟨level, ds, hd⟩

theorem Sinks.nil : Sinks n n d [] d := ⟨fun _ => 0, fun _ _ => ⟨[], .nil⟩⟩

theorem Sinks.one (h : ∀ level, Suits level i d e) : Sinks n n d [i] e :=
  ⟨fun _ => 0, fun level _ => ⟨[d], .one (h level)⟩⟩

end

end WhileStack.Machine
