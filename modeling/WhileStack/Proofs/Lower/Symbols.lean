import WhileStack.Lower.Symbols
import WhileStack.Proofs.Lookup

/-! Slots that names refer to: no two names share one, and all were given out to values. -/
namespace WhileStack.Lower.Symbols
open Machine (Local)

/-- The names that can be seen, the innermost first. -/
def visible (s : Symbols) : Scope := (s.inner :: s.outer).flatten

/-- Names refer to slots that hold values. -/
structure HoldsValues (s : Symbols) : Prop where
  value : ∀ b ∈ s.visible, b.2.ty.isVoid = false

/-- The first slot is never one of a name. -/
structure Valid (s : Symbols) : Prop extends HoldsValues s where
  reserved : 0 < s.size
  nodup : (s.visible.map fun b => b.2.slot).Nodup
  bound : ∀ b ∈ s.visible, 0 < b.2.slot ∧ b.2.slot < s.size

/-- What holds of a table still holds when a name is declared and when a scope is entered or left. -/
structure Keeps (P : Symbols → Prop) : Prop where
  declare : ∀ {s name ty l s'}, P s → s.declare name ty = .ok (l, s') → P s'
  enter : ∀ {s}, P s → P s.enter
  exit : ∀ {s}, P s → P s.exit

/-- The tables that scopes and slots can be built up to. -/
inductive Built : Symbols → Prop
  | empty : Built .empty
  | enter {s} (h : Built s) : Built s.enter
  | exit {s} (h : Built s) : Built s.exit
  | reserve {s name ty l s'} (h : Built s) (hr : s.reserve name ty = .ok (l, s')) : Built s'
  | declare {s name ty l s'} (h : Built s) (hd : s.declare name ty = .ok (l, s')) : Built s'

variable {s s' : Symbols} {name : String} {l : Local} {ty : Machine.Ty}

theorem findSome?_lookup {α : Type} (scopes : List (List (String × α))) (name : String) :
    (scopes.findSome? fun scope => scope.lookup name) = scopes.flatten.lookup name := by
  induction scopes with
  | nil => rfl
  | cons scope scopes ih =>
    rw [List.findSome?_cons, List.flatten_cons, ih, List.lookup_append]
    cases scope.lookup name <;> rfl

theorem lookup?_eq (s : Symbols) (name : String) : s.lookup? name = s.visible.lookup name :=
  findSome?_lookup _ _

theorem mem_of_lookup? (h : s.lookup? name = some l) : (name, l) ∈ s.visible := mem_of_lookup (lookup?_eq s name ▸ h)

theorem declare_eq_ok (h : s.declare name ty = .ok (l, s')) :
    ty.isVoid = false ∧ l = ⟨name, s.size, ty⟩ ∧ s' = ⟨(name, l) :: s.inner, s.outer, l :: s.allocated⟩ := by
  cases hw : ty.isVoid with
  | true => simp [declare, reserve, Machine.Ty.width, hw, bind, Except.bind] at h
  | false =>
    simp only [declare, reserve, Machine.Ty.width, hw, bind, Except.bind] at h
    cases h
    exact ⟨rfl, rfl, rfl⟩

namespace HoldsValues

theorem declare (v : s.HoldsValues) (h : s.declare name ty = .ok (l, s')) : s'.HoldsValues := by
  obtain ⟨hv, rfl, rfl⟩ := declare_eq_ok h
  refine ⟨fun b hb => ?_⟩
  rcases List.mem_cons.mp hb with rfl | hb
  · exact hv
  · exact v.value b hb

theorem enter (v : s.HoldsValues) : s.enter.HoldsValues := ⟨v.value⟩

theorem exit (v : s.HoldsValues) : s.exit.HoldsValues := by
  obtain ⟨inner, outer, allocated⟩ := s
  cases outer with
  | nil => exact v
  | cons scope outer => exact ⟨fun b hb => v.value b (List.mem_append_right _ hb)⟩

end HoldsValues

theorem Valid.declare (v : s.Valid) (h : s.declare name ty = .ok (l, s')) : s'.Valid := by
  have hvalue := v.toHoldsValues.declare h
  obtain ⟨-, rfl, rfl⟩ := declare_eq_ok h
  refine ⟨hvalue, by simp [size], List.nodup_cons.mpr ⟨fun hm => ?_, v.nodup⟩, ?_⟩
  · obtain ⟨b, hb, he⟩ := List.mem_map.mp hm
    have := (v.bound b hb).2
    dsimp only at he
    omega
  · intro b hb
    have hs : (Symbols.mk ((name, ⟨name, s.size, ty⟩) :: s.inner) s.outer (⟨name, s.size, ty⟩ :: s.allocated)).size =
        s.size + 1 := rfl
    rcases List.mem_cons.mp hb with rfl | hb
    · exact ⟨v.reserved, by simp [hs]⟩
    · have := v.bound b hb
      exact ⟨this.1, by omega⟩

theorem Valid.enter (v : s.Valid) : s.enter.Valid := ⟨v.toHoldsValues.enter, v.reserved, v.nodup, v.bound⟩

theorem Valid.exit (v : s.Valid) : s.exit.Valid := by
  obtain ⟨inner, outer, allocated⟩ := s
  cases outer with
  | nil => exact v
  | cons scope outer =>
    have hsub : (Symbols.exit ⟨inner, scope :: outer, allocated⟩).visible.Sublist
        (Symbols.visible ⟨inner, scope :: outer, allocated⟩) := List.sublist_append_right _ _
    exact ⟨v.toHoldsValues.exit, v.reserved, v.nodup.sublist (hsub.map _), fun b hb => v.bound b (hsub.mem hb)⟩

theorem Keeps.valid : Keeps Valid := ⟨Valid.declare, Valid.enter, Valid.exit⟩

theorem Keeps.holdsValues : Keeps HoldsValues := ⟨HoldsValues.declare, HoldsValues.enter, HoldsValues.exit⟩

theorem Keeps.built : Keeps Built := ⟨Built.declare, Built.enter, Built.exit⟩

theorem Built.holdsValues (h : s.Built) : s.HoldsValues := by
  induction h with
  | empty => exact ⟨nofun⟩
  | enter _ ih => exact ih.enter
  | exit _ ih => exact ih.exit
  | @reserve s name ty l s' _ hr ih =>
    unfold Symbols.reserve at hr
    split at hr
    · cases hr
    · cases hr
      exact ⟨ih.value⟩
  | declare _ hd ih => exact ih.declare hd

/-- More names in the innermost scope, the same around it, and no fewer slots. -/
structure Grows (s s' : Symbols) : Prop where
  inner : ∃ news, s'.inner = news ++ s.inner
  outer_eq : s'.outer = s.outer
  size_le : s.size ≤ s'.size

namespace Grows

theorem refl (s : Symbols) : s.Grows s := ⟨⟨[], rfl⟩, rfl, Nat.le_refl _⟩

theorem trans {s'' : Symbols} (g : s.Grows s') (g' : s'.Grows s'') : s.Grows s'' := by
  obtain ⟨news, h⟩ := g.inner
  obtain ⟨news', h'⟩ := g'.inner
  exact ⟨⟨news' ++ news, by rw [h', h, List.append_assoc]⟩, g'.outer_eq.trans g.outer_eq, Nat.le_trans g.size_le g'.size_le⟩

theorem declare (h : s.declare name ty = .ok (l, s')) : s.Grows s' := by
  obtain ⟨-, -, rfl⟩ := declare_eq_ok h
  exact ⟨⟨[(name, l)], rfl⟩, rfl, Nat.le_succ _⟩

/-- Leaving a scope brings back the names that were there before it. -/
theorem exit_eq (g : s.enter.Grows s') : s'.exit.inner = s.inner ∧ s'.exit.outer = s.outer ∧ s'.exit.size = s'.size := by
  obtain ⟨inner, outer, allocated⟩ := s'
  obtain rfl : outer = s.inner :: s.outer := g.outer_eq
  exact ⟨rfl, rfl, rfl⟩

theorem exit (g : s.enter.Grows s') : s.Grows s'.exit := by
  obtain ⟨hi, ho, hs⟩ := g.exit_eq
  exact ⟨⟨[], hi⟩, ho, hs ▸ g.size_le⟩

end Grows

end WhileStack.Lower.Symbols
