import WhileStack.Lower.Layout
import WhileStack.Proofs.Exec
import WhileStack.Proofs.Source.Types

/-! Layouts of values hold no void, at any depth. -/
namespace WhileStack

namespace Machine.Ty

mutual

/-- Types of values that a program can have: void occurs nowhere in them. -/
def isValue : Ty → Bool
  | .int => true
  | .boolean => true
  | .string => true
  | .list t => isValue t
  | .record fs => areValues fs
  | _ => false

def areValues : List (String × Ty) → Bool
  | [] => true
  | (_, t) :: fs => isValue t && areValues fs

end

theorem isVoid_of_isValue {t : Ty} (h : t.isValue = true) : t.isVoid = false := by
  cases t <;> simp_all [isValue, isVoid]

theorem isValue_of_mem {fs : List (String × Ty)} (h : areValues fs = true) {f : String × Ty} (hf : f ∈ fs) :
    f.2.isValue = true := by
  induction fs with
  | nil => simp at hf
  | cons g fs ih =>
    obtain ⟨hg, h⟩ := Bool.and_eq_true_iff.mp (by simpa only [areValues] using h)
    rcases List.mem_cons.mp hf with rfl | hf
    · exact hg
    · exact ih h hf

theorem mem_of_findField {name : String} {fs : List (String × Ty)} {i k : Nat} {t : Ty}
    (h : findField name i fs = some (k, t)) : ∃ j, k = i + j ∧ fs[j]? = some (name, t) := by
  induction fs generalizing i with
  | nil => simp [findField] at h
  | cons f fs ih =>
    simp only [findField] at h
    split at h
    · rename_i hn
      cases h
      exact ⟨0, rfl, by simp [← hn]⟩
    · obtain ⟨j, rfl, hj⟩ := ih h
      exact ⟨j + 1, by omega, by simpa using hj⟩

theorem findField_map_snd (name : String) (i : Nat) (fs : List (String × Ty)) :
    (findField name i fs).map Prod.snd = fs.lookup name := by
  induction fs generalizing i with
  | nil => rfl
  | cons f fs ih =>
    rw [findField, List.lookup_cons]
    by_cases hn : f.1 = name
    · rw [if_pos hn, beq_iff_eq.mpr hn.symm]
      rfl
    · rw [if_neg hn, beq_false_of_ne (Ne.symm hn)]
      exact ih (i + 1)

theorem lookup_of_findField {name : String} {fs : List (String × Ty)} {i k : Nat} {t : Ty}
    (h : findField name i fs = some (k, t)) : fs.lookup name = some t := by
  rw [← findField_map_snd name i fs, h]
  rfl

end Machine.Ty

namespace Lower
open Source (Ty Aliases)
open Machine.Ty (isValue areValues)

/-- What a layout may be: that of a value, or void where that is allowed. -/
private def Allowed (allowVoid : Bool) (m : Machine.Ty) : Prop := isValue m = true ∨ (allowVoid = true ∧ m = .void)

private theorem Allowed.isValue {m : Machine.Ty} (h : Allowed false m) : m.isValue = true := by
  rcases h with h | ⟨h, -⟩
  · exact h
  · cases h

section
variable {onName : String → Bool → Except LayoutError Machine.Ty}

mutual

private theorem layoutWith_allowed (hn : ∀ n a m, onName n a = .ok m → Allowed a m) :
    ∀ (t : Ty) {a m}, layoutWith onName a t = .ok m → Allowed a m
  | .void, a, m, h => by
    cases a with
    | true => cases h; exact .inr ⟨rfl, rfl⟩
    | false => cases h
  | .bool, a, m, h => by cases h; exact .inl rfl
  | .int, a, m, h => by cases h; exact .inl rfl
  | .string, a, m, h => by cases h; exact .inl rfl
  | .list t, a, m, h => by
    cases ht : layoutWith onName false t with
    | error e => simp [layoutWith, ht, bind, Except.bind] at h
    | ok u =>
      simp only [layoutWith, ht, bind, Except.bind, Except.ok.injEq] at h
      subst h
      exact .inl (layoutWith_allowed hn t ht).isValue
  | .record fs, a, m, h => by
    cases hf : fieldLayouts onName fs with
    | error e => simp [layoutWith, hf, bind, Except.bind] at h
    | ok us =>
      simp only [layoutWith, hf, bind, Except.bind, Except.ok.injEq] at h
      subst h
      exact .inl (fieldLayouts_areValues hn fs hf)
  | .named n, a, m, h => hn n a m (by simpa only [layoutWith] using h)

private theorem fieldLayouts_areValues (hn : ∀ n a m, onName n a = .ok m → Allowed a m) :
    ∀ (fs : List (String × Ty)) {ms}, fieldLayouts onName fs = .ok ms → areValues ms = true
  | [], ms, h => by cases h; rfl
  | (n, t) :: fs, ms, h => by
    cases ht : layoutWith onName false t with
    | error e => simp [fieldLayouts, ht, bind, Except.bind] at h
    | ok u =>
      cases hf : fieldLayouts onName fs with
      | error e => simp [fieldLayouts, ht, hf, bind, Except.bind] at h
      | ok us =>
        simp only [fieldLayouts, ht, hf, bind, Except.bind, Except.ok.injEq] at h
        subst h
        simp [areValues, (layoutWith_allowed hn t ht).isValue, fieldLayouts_areValues hn fs hf]

end

end

/-- A name has a layout only through its declaration, one step closer to the end. -/
theorem nameLayout_eq_ok {aliases : Aliases} {left : Nat} {expanding : List String} {n : String} {a : Bool}
    {m : Machine.Ty} (h : nameLayout aliases left expanding n a = .ok m) :
    ∃ left' t, left = left' + 1 ∧ n ∉ expanding ∧ aliases.lookup n = some t ∧
      layoutWith (nameLayout aliases left' (n :: expanding)) a t = .ok m := by
  unfold nameLayout at h
  split at h
  · cases h
  · rename_i he
    split at h
    · cases h
    · cases h
    · exact ⟨_, _, rfl, he, ‹_›, h⟩

private theorem nameLayout_allowed {aliases : Aliases} {left : Nat} {expanding : List String} {n : String} {a : Bool}
    {m : Machine.Ty} (h : nameLayout aliases left expanding n a = .ok m) : Allowed a m := by
  induction left generalizing expanding n a m with
  | zero =>
    obtain ⟨_, _, hl, -⟩ := nameLayout_eq_ok h
    omega
  | succ left ih =>
    obtain ⟨_, t, hl, -, -, ht⟩ := nameLayout_eq_ok h
    cases hl
    exact layoutWith_allowed (fun _ _ _ h => ih h) t ht

theorem valueLayout_isValue {aliases : Aliases} {t : Ty} {m : Machine.Ty} (h : valueLayout aliases t = .ok m) :
    isValue m = true := (layoutWith_allowed (fun _ _ _ h => nameLayout_allowed h) t h).isValue

theorem layout_isValue {aliases : Aliases} {t : Ty} {m : Machine.Ty} (h : layout aliases t = .ok m)
    (hm : m.isVoid = false) : isValue m = true := by
  rcases layoutWith_allowed (fun _ _ _ h => nameLayout_allowed h) t h with h | ⟨-, rfl⟩
  · exact h
  · cases hm

section
variable {onName onName' : String → Bool → Except LayoutError Machine.Ty}

mutual

/-- Where names keep their layouts, types do. -/
theorem layoutWith_mono (hn : ∀ n a m, onName n a = .ok m → onName' n a = .ok m) :
    ∀ (t : Ty) {a m}, layoutWith onName a t = .ok m → layoutWith onName' a t = .ok m
  | .void, _, _, h | .bool, _, _, h | .int, _, _, h | .string, _, _, h => h
  | .named n, a, m, h => hn n a m h
  | .list t, _, _, h => by
    obtain ⟨u, hu, h⟩ := Partial.then_eq_ok.mp h
    exact Partial.then_eq_ok.mpr ⟨u, layoutWith_mono hn t hu, h⟩
  | .record fs, _, _, h => by
    obtain ⟨us, hus, h⟩ := Partial.then_eq_ok.mp h
    exact Partial.then_eq_ok.mpr ⟨us, fieldLayouts_mono hn fs hus, h⟩

theorem fieldLayouts_mono (hn : ∀ n a m, onName n a = .ok m → onName' n a = .ok m) :
    ∀ (fs : List (String × Ty)) {ms}, fieldLayouts onName fs = .ok ms → fieldLayouts onName' fs = .ok ms
  | [], _, h => h
  | (_, t) :: fs, _, h => by
    obtain ⟨u, hu, h⟩ := Partial.then_eq_ok.mp h
    obtain ⟨us, hus, h⟩ := Partial.then_eq_ok.mp h
    exact Partial.then_eq_ok.mpr ⟨u, layoutWith_mono hn t hu,
      Partial.then_eq_ok.mpr ⟨us, fieldLayouts_mono hn fs hus, h⟩⟩

end

end

/-- A layout is found within more expansions too, and where fewer names are being expanded. -/
theorem nameLayout_mono {aliases : Aliases} {left left' : Nat} {expanding expanding' : List String} {n : String} {a : Bool}
    {m : Machine.Ty} (hl : left ≤ left') (hs : expanding' ⊆ expanding) (h : nameLayout aliases left expanding n a = .ok m) :
    nameLayout aliases left' expanding' n a = .ok m := by
  induction left generalizing left' expanding expanding' n a m with
  | zero =>
    obtain ⟨_, _, hk, -⟩ := nameLayout_eq_ok h
    omega
  | succ left ih =>
    obtain ⟨k, t, hk, he, ht, h⟩ := nameLayout_eq_ok h
    cases hk
    obtain ⟨k, rfl⟩ : ∃ k, left' = k + 1 := ⟨left' - 1, by omega⟩
    unfold nameLayout
    simp only [if_neg fun hm => he (hs hm), ht]
    exact layoutWith_mono (fun _ _ _ h => ih (by omega) (List.cons_subset_cons n hs) h) t h

private theorem layoutWith_true {onName : String → Bool → Except LayoutError Machine.Ty}
    (hn : ∀ n m, onName n false = .ok m → onName n true = .ok m) {t : Ty} {m : Machine.Ty}
    (h : layoutWith onName false t = .ok m) : layoutWith onName true t = .ok m := by
  cases t with
  | void => cases h
  | named n => exact hn n m h
  | _ => simpa only [layoutWith] using h

private theorem nameLayout_true {aliases : Aliases} {left : Nat} {expanding : List String} {n : String}
    {m : Machine.Ty} (h : nameLayout aliases left expanding n false = .ok m) :
    nameLayout aliases left expanding n true = .ok m := by
  induction left generalizing expanding n m with
  | zero =>
    obtain ⟨_, _, hl, -⟩ := nameLayout_eq_ok h
    omega
  | succ left ih =>
    obtain ⟨_, t, hl, he, ht, h⟩ := nameLayout_eq_ok h
    cases hl
    unfold nameLayout
    rw [if_neg he]
    split
    · simp_all
    · simp_all
    · rename_i heq
      cases heq
      cases ht.symm.trans ‹_›
      exact layoutWith_true (fun _ _ h => ih h) h

/-- Where void is not asked for, allowing it changes nothing. -/
theorem layout_of_valueLayout {aliases : Aliases} {t : Ty} {m : Machine.Ty} (h : valueLayout aliases t = .ok m) :
    layout aliases t = .ok m := layoutWith_true (fun _ _ h => nameLayout_true h) h

/-- A type that is not a name, and a layout of the same kind; records have the same fields in the same order. -/
inductive SameHead : Ty → Machine.Ty → Prop where
  | void : SameHead .void .void
  | bool : SameHead .bool .boolean
  | int : SameHead .int .int
  | string : SameHead .string .string
  | list {t m} : SameHead (.list t) (.list m)
  | record {fs ms} : fs.map Prod.fst = ms.map Prod.fst → SameHead (.record fs) (.record ms)

private theorem fieldLayouts_names {onName : String → Bool → Except LayoutError Machine.Ty} {fs : List (String × Ty)}
    {ms : List (String × Machine.Ty)} (h : fieldLayouts onName fs = .ok ms) : fs.map Prod.fst = ms.map Prod.fst := by
  induction fs generalizing ms with
  | nil => cases h; rfl
  | cons f fs ih =>
    obtain ⟨n, t⟩ := f
    cases ht : layoutWith onName false t with
    | error e => simp [fieldLayouts, ht, bind, Except.bind] at h
    | ok u =>
      cases hf : fieldLayouts onName fs with
      | error e => simp [fieldLayouts, ht, hf, bind, Except.bind] at h
      | ok us =>
        simp only [fieldLayouts, ht, hf, bind, Except.bind, Except.ok.injEq] at h
        subst h
        simp [ih hf]

private theorem sameHead_of_layoutWith {onName : String → Bool → Except LayoutError Machine.Ty} {a : Bool} {t : Ty}
    {m : Machine.Ty} (ht : ∀ n, t ≠ .named n) (h : layoutWith onName a t = .ok m) : SameHead t m := by
  cases t with
  | void =>
    simp only [layoutWith] at h
    split at h
    · cases h
      exact .void
    · cases h
  | bool => cases h; exact .bool
  | int => cases h; exact .int
  | string => cases h; exact .string
  | list t =>
    cases ht : layoutWith onName false t with
    | error e => simp [layoutWith, ht, bind, Except.bind] at h
    | ok u =>
      simp only [layoutWith, ht, bind, Except.bind, Except.ok.injEq] at h
      exact h ▸ .list
  | record fs =>
    cases hf : fieldLayouts onName fs with
    | error e => simp [layoutWith, hf, bind, Except.bind] at h
    | ok us =>
      simp only [layoutWith, hf, bind, Except.bind, Except.ok.injEq] at h
      exact h ▸ .record (fieldLayouts_names hf)
  | named n => exact absurd rfl (ht n)

theorem follow_named {aliases : Aliases} {left : Nat} {seen : List String} {n : String} {t : Ty} (hs : n ∉ seen)
    (ht : aliases.lookup n = some t) : aliases.follow (left + 1) seen (.named n) = aliases.follow left (n :: seen) t := by
  conv => lhs; unfold Aliases.follow
  simp only [if_neg hs, ht]

private theorem follow_of_layoutWith {aliases : Aliases} {left : Nat} {seen : List String} {a : Bool} {t : Ty}
    {m : Machine.Ty} (h : layoutWith (nameLayout aliases left seen) a t = .ok m) :
    ∃ u, aliases.follow left seen t = .ok u ∧ SameHead u m := by
  induction left generalizing seen t with
  | zero =>
    cases t with
    | named n =>
      obtain ⟨_, _, hl, -⟩ := nameLayout_eq_ok h
      omega
    | _ => exact ⟨_, by simp [Aliases.follow], sameHead_of_layoutWith (by simp) h⟩
  | succ left ih =>
    cases t with
    | named n =>
      obtain ⟨_, t, hl, hs, ht, h⟩ := nameLayout_eq_ok h
      cases hl
      rw [follow_named hs ht]
      exact ih h
    | _ => exact ⟨_, by simp [Aliases.follow], sameHead_of_layoutWith (by simp) h⟩

/-- Where a type has a layout, it stands for a type of that kind. -/
theorem underlying_of_layout {aliases : Aliases} {t : Ty} {m : Machine.Ty} (h : layout aliases t = .ok m) :
    ∃ u, aliases.underlying t = .ok u ∧ SameHead u m := follow_of_layoutWith h

/-- A type that has no values is void, or a name of it. -/
theorem isVoid_of_layout {p : Source.Program} {t : Ty} {m : Machine.Ty} (h : layout p.aliases t = .ok m)
    (hn : ¬ p.IsVoidName t) : m.isVoid = true ↔ t = .void := by
  obtain ⟨u, hu, hs⟩ := underlying_of_layout h
  constructor
  · intro hv
    have hvoid : u = .void := by cases hs <;> first | rfl | cases hv
    subst hvoid
    cases t with
    | named n => exact absurd ⟨n, rfl, hu⟩ hn
    | void => rfl
    | _ => simp [Source.Aliases.underlying, Source.Aliases.follow] at hu
  · rintro rfl
    simp only [Source.Aliases.underlying, Source.Aliases.follow, Except.ok.injEq] at hu
    subst hu
    cases hs
    rfl

end Lower
end WhileStack
