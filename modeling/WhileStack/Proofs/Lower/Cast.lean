import WhileStack.Lower.Cast
import WhileStack.Proofs.Lookup
import WhileStack.Proofs.Lower.Layout

/-! Which types may be cast to which: a preorder, in which records go down to some of their fields in any order. -/
namespace WhileStack.Lower
open Machine
variable {a b c : Ty} {fs gs hs : List (String × Ty)}

def CanCast (a b : Ty) : Prop := (castKind? a b).isSome = true

instance : Decidable (CanCast a b) := inferInstanceAs (Decidable (_ = true))

/-- One layout has each field of another, of the same type. -/
def Selects (gs fs : List (String × Ty)) : Prop := ∀ f ∈ fs, gs.lookup f.1 = some f.2

theorem Selects.trans (h : Selects gs fs) (h' : Selects fs hs) : Selects gs hs := by
  intro f hf
  exact h f (mem_of_lookup (h' f hf))

/-- What a cast converts. -/
inductive Converts : Ty → Ty → Prop where
  | int : Converts .int .string
  | boolean : Converts .boolean .string
  | record {gs fs : List (String × Ty)} : Selects gs fs → Converts (.record gs) (.record fs)

theorem castKind?_self (a : Ty) : castKind? a a = some .identity := if_pos rfl

private theorem selects_iff :
    (fs.all fun f => ((Ty.record gs).field? f.1).any fun g => g.2 = f.2) = true ↔ Selects gs fs := by
  rw [List.all_eq_true]
  refine forall₂_congr fun f _ => ?_
  rw [← Ty.findField_map_snd f.1 0 gs, Ty.field?, Ty.fields]
  cases Ty.findField f.1 0 gs <;> simp

private theorem castKind?_of_ne (he : a ≠ b) {k : CastKind} : castKind? a b = some k ↔ k = .convert ∧ Converts a b := by
  unfold castKind?
  rw [if_neg he]
  constructor
  · intro h
    split at h
    · exact ⟨(Option.some.inj h).symm, .int⟩
    · exact ⟨(Option.some.inj h).symm, .boolean⟩
    · obtain ⟨hall, hk⟩ := Option.ite_none_right_eq_some.mp h
      exact ⟨(Option.some.inj hk).symm, .record (selects_iff.mp hall)⟩
    · cases h
  · rintro ⟨rfl, h⟩
    cases h with
    | int => rfl
    | boolean => rfl
    | record h => exact if_pos (selects_iff.mpr h)

theorem castKind?_convert : castKind? a b = some .convert ↔ a ≠ b ∧ Converts a b := by
  by_cases he : a = b
  · subst he
    simp [castKind?_self]
  · simp [castKind?_of_ne he, he]

theorem castKind?_identity : castKind? a b = some .identity ↔ a = b := by
  by_cases he : a = b
  · subst he
    simp [castKind?_self]
  · simp [castKind?_of_ne he, he]

theorem canCast_iff : CanCast a b ↔ a = b ∨ Converts a b := by
  have h : CanCast a b ↔ castKind? a b = some .identity ∨ castKind? a b = some .convert := by
    rw [CanCast]
    cases castKind? a b with
    | none => simp
    | some k => cases k <;> simp
  rw [h, castKind?_identity, castKind?_convert]
  tauto

theorem Converts.trans (h : Converts a b) (h' : Converts b c) : Converts a c := by
  cases h with
  | int => cases h'
  | boolean => cases h'
  | record h =>
    cases h' with
    | record h' => exact .record (h.trans h')

theorem CanCast.trans (h : CanCast a b) (h' : CanCast b c) : CanCast a c := by
  rw [canCast_iff] at h h' ⊢
  rcases h with rfl | h
  · exact h'
  · rcases h' with rfl | h'
    · exact .inr h
    · exact .inr (h.trans h')

end WhileStack.Lower
