import Mathlib.Data.List.Forall2

/-! Looking names up in lists of named things. -/
namespace WhileStack
variable {α β : Type} {xs : List (String × α)} {name : String} {x : α}

theorem mem_of_lookup (h : xs.lookup name = some x) : (name, x) ∈ xs := by
  obtain ⟨l, r, rfl, -⟩ := List.lookup_eq_some_iff.mp h
  simp

theorem lookup_of_mem (hn : (xs.map Prod.fst).Nodup) (hx : (name, x) ∈ xs) : xs.lookup name = some x := by
  induction xs with
  | nil => cases hx
  | cons y xs ih =>
    rw [List.map_cons, List.nodup_cons] at hn
    rcases List.mem_cons.mp hx with rfl | h
    · rw [List.lookup_cons, beq_self_eq_true]
    · have hm : name ∈ xs.map Prod.fst := List.mem_map.mpr ⟨_, h, rfl⟩
      have hne : name ≠ y.1 := by
        rintro rfl
        exact hn.1 hm
      rw [List.lookup_cons, beq_false_of_ne hne]
      exact ih hn.2 h

theorem lookup_map (f : α → β) (xs : List (String × α)) (name : String) :
    (xs.map fun e => (e.1, f e.2)).lookup name = (xs.lookup name).map f := by
  induction xs with
  | nil => rfl
  | cons e xs ih =>
    obtain ⟨n, a⟩ := e
    rw [List.map_cons, List.lookup_cons, List.lookup_cons, ih]
    cases name == n <;> rfl

/-- A name stands for related things in lists that name related things alike, or for nothing in both. -/
theorem lookup_forall₂ {R : α → β → Prop} {ys : List (String × β)}
    (h : List.Forall₂ (fun x y => x.1 = y.1 ∧ R x.2 y.2) xs ys) (name : String) :
    (xs.lookup name = none ∧ ys.lookup name = none) ∨
      ∃ x y, xs.lookup name = some x ∧ ys.lookup name = some y ∧ R x y := by
  induction h with
  | nil => exact .inl ⟨rfl, rfl⟩
  | @cons x y xs ys hxy _ ih =>
    rw [List.lookup_cons, List.lookup_cons, ← hxy.1]
    cases name == x.1 with
    | true => exact .inr ⟨x.2, y.2, rfl, rfl, hxy.2⟩
    | false => exact ih

/-- Values that are related to the types of a layout, under its names. -/
theorem forall₂_zip_names {R : β → α → Prop} {ys : List β} (h : List.Forall₂ R ys (xs.map Prod.snd)) :
    List.Forall₂ (fun y x => y.1 = x.1 ∧ R y.2 x.2) ((xs.map Prod.fst).zip ys) xs := by
  induction xs generalizing ys with
  | nil =>
    rw [List.map_nil, List.forall₂_nil_right_iff] at h
    exact h ▸ .nil
  | cons x xs ih =>
    obtain ⟨y, ys, hy, hys, rfl⟩ := List.forall₂_cons_right_iff.mp h
    exact .cons ⟨rfl, hy⟩ (ih hys)

end WhileStack
