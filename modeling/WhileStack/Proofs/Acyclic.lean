import Mathlib.Data.Fintype.Card
import Mathlib.Data.Set.Finite.Basic
import Mathlib.Logic.Relation
import Mathlib.Order.WellFounded

/-! Following a relation ends where there are finitely many things to reach and none of them leads back to itself. -/
namespace WhileStack
open Relation (TransGen)

theorem wellFounded_of_acyclic {α : Type} {p : α → Prop} {r : α → α → Prop} (hp : { a | p a }.Finite)
    (hr : ∀ a, p a → ¬ TransGen r a a) : WellFounded fun b a : { a // p a } => r a b := by
  -- Transitive and without a loop on a finite type: no way down is endless.
  have : Finite { a // p a } := hp
  let below (b a : { a // p a }) : Prop := TransGen r a b
  have : IsTrans _ below := ⟨fun _ _ _ hab hbc => hbc.trans hab⟩
  have : Std.Irrefl below := ⟨fun a => hr a a.2⟩
  exact (Finite.wellFounded_of_trans_of_irrefl below).mono fun _ _ h => .single h

end WhileStack
