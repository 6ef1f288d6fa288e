import WhileStack.Proofs.Acyclic
import WhileStack.Proofs.Source.Structural

/-! Type names that declarations lead to. A type has an expansion just where all of them are declared and none leads
back to itself. -/
namespace WhileStack.Source
open Relation (ReflTransGen TransGen)

namespace Ty

mutual

/-- The names that a type is written with. -/
def names : Ty → List String
  | list t => names t
  | record fs => fieldTypeNames fs
  | named n => [n]
  | _ => []

def fieldTypeNames : List (String × Ty) → List String
  | [] => []
  | (_, t) :: fs => names t ++ fieldTypeNames fs

end

mutual

/-- Void occurs in the type, at any depth. -/
def hasVoid : Ty → Bool
  | void => true
  | list t => hasVoid t
  | record fs => fieldsHaveVoid fs
  | _ => false

def fieldsHaveVoid : List (String × Ty) → Bool
  | [] => false
  | (_, t) :: fs => hasVoid t || fieldsHaveVoid fs

end

end Ty

namespace Aliases
variable (aliases : Aliases)

/-- A name is declared as a type that is written with another. -/
def Refers (m n : String) : Prop := ∃ u, aliases.lookup m = some u ∧ n ∈ u.names

/-- A type is written with a name, or with one that leads to it through declarations. -/
def Leads (t : Ty) (n : String) : Prop := ∃ m ∈ t.names, ReflTransGen aliases.Refers m n

/-- Every name that the type leads to is declared, and is not among those that its own declaration leads to. -/
structure Expandable (t : Ty) : Prop where
  declared : ∀ n, aliases.Leads t n → (aliases.lookup n).isSome = true
  acyclic : ∀ n, aliases.Leads t n → ¬ TransGen aliases.Refers n n

variable {aliases} {t u : Ty} {m n : String}

theorem Leads.mono {u : Ty} (h : aliases.Leads t n) (hs : t.names ⊆ u.names) : aliases.Leads u n :=
  h.imp fun _ hm => ⟨hs hm.1, hm.2⟩

theorem Leads.named (hn : aliases.lookup m = some t) (h : aliases.Leads t n) : aliases.Leads (.named m) n := by
  obtain ⟨k, hk, hr⟩ := h
  exact ⟨m, by simp [Ty.names], .head ⟨t, hn, hk⟩ hr⟩

theorem Leads.refers (h : aliases.Leads t m) (hr : aliases.Refers m n) : aliases.Leads t n :=
  h.imp fun _ hk => ⟨hk.1, hk.2.tail hr⟩

theorem leads_of_mem (h : n ∈ t.names) : aliases.Leads t n := ⟨n, h, .refl⟩

end Aliases

mutual

theorem Expands.unique {aliases : Aliases} : ∀ {t u v}, Expands aliases t u → Expands aliases t v → u = v
  | _, _, _, .void, .void => rfl
  | _, _, _, .bool, .bool => rfl
  | _, _, _, .int, .int => rfl
  | _, _, _, .string, .string => rfl
  | _, _, _, .list h, .list h' => by rw [h.unique h']
  | _, _, _, .record h, .record h' => by rw [h.unique h']
  | _, _, _, .named hn h, .named hn' h' => by
    cases hn.symm.trans hn'
    exact h.unique h'

theorem ExpandsFields.unique {aliases : Aliases} :
    ∀ {fs gs hs}, ExpandsFields aliases fs gs → ExpandsFields aliases fs hs → gs = hs
  | _, _, _, .nil, .nil => rfl
  | _, _, _, .cons h hs, .cons h' hs' => by rw [h.unique h', hs.unique hs']

end

section
variable {aliases : Aliases}

mutual

/-- Names of a type that has an expansion have theirs, and lead to finitely many in a row. -/
private theorem Expands.of_mem : ∀ {t u}, Expands aliases t u → ∀ n ∈ t.names,
    (∃ v, Expands aliases (.named n) v) ∧ Acc (Function.swap aliases.Refers) n
  | _, _, .void, _, hm | _, _, .bool, _, hm | _, _, .int, _, hm | _, _, .string, _, hm => absurd hm List.not_mem_nil
  | _, _, .list h, n, hm => h.of_mem n hm
  | _, _, .record h, n, hm => h.of_mem n hm
  | _, _, .named hn h, _, hm => by
    cases List.mem_singleton.mp hm
    refine ⟨⟨_, .named hn h⟩, Acc.intro _ ?_⟩
    -- A name leads on only to those of its declaration, which the rest of the derivation covers.
    rintro k ⟨t, ht, hk⟩
    cases hn.symm.trans ht
    exact (h.of_mem k hk).2

private theorem ExpandsFields.of_mem : ∀ {fs gs}, ExpandsFields aliases fs gs → ∀ n ∈ Ty.fieldTypeNames fs,
    (∃ v, Expands aliases (.named n) v) ∧ Acc (Function.swap aliases.Refers) n
  | _, _, .nil, _, hm => absurd hm List.not_mem_nil
  | _, _, .cons h hs, n, hm => (List.mem_append.mp hm).elim (h.of_mem n) (hs.of_mem n)

end

variable {t u : Ty}

private theorem Expands.of_leads (h : Expands aliases t u) {n : String} (hl : aliases.Leads t n) :
    (∃ v, Expands aliases (.named n) v) ∧ Acc (Function.swap aliases.Refers) n := by
  obtain ⟨m, hm, hr⟩ := hl
  induction hr with
  | refl => exact h.of_mem m hm
  | tail _ hr ih =>
    obtain ⟨⟨v, hv⟩, -⟩ := ih
    obtain ⟨t, ht, hn⟩ := hr
    cases hv with
    | named ht' hv =>
      cases ht.symm.trans ht'
      exact hv.of_mem _ hn

private theorem not_rel_of_acc {α : Type} {r : α → α → Prop} {a : α} (h : Acc r a) : ¬ r a a := by
  induction h with
  | intro a _ ih => exact fun hr => ih a hr hr

theorem Expands.expandable (h : Expands aliases t u) : aliases.Expandable t where
  declared n hl := by
    obtain ⟨⟨v, hv⟩, -⟩ := h.of_leads hl
    cases hv with
    | named hn _ => simp [hn]
  acyclic n hl hc := not_rel_of_acc (h.of_leads hl).2.transGen (Relation.transGen_swap.mpr hc)

mutual

/-- A type has an expansion as soon as its names do. -/
private theorem exists_expands_of_names : ∀ t, (∀ n ∈ Ty.names t, ∃ u, Expands aliases (.named n) u) →
    ∃ u, Expands aliases t u
  | .void, _ => ⟨_, .void⟩
  | .bool, _ => ⟨_, .bool⟩
  | .int, _ => ⟨_, .int⟩
  | .string, _ => ⟨_, .string⟩
  | .named n, h => h n (by simp [Ty.names])
  | .list t, h => by
    obtain ⟨u, hu⟩ := exists_expands_of_names t h
    exact ⟨_, .list hu⟩
  | .record fs, h => by
    obtain ⟨gs, hgs⟩ := exists_expandsFields_of_names fs h
    exact ⟨_, .record hgs⟩

private theorem exists_expandsFields_of_names :
    ∀ fs, (∀ n ∈ Ty.fieldTypeNames fs, ∃ u, Expands aliases (.named n) u) → ∃ gs, ExpandsFields aliases fs gs
  | [], _ => ⟨_, .nil⟩
  | (_, t) :: fs, h => by
    obtain ⟨u, hu⟩ := exists_expands_of_names t fun n hn => h n (List.mem_append_left _ hn)
    obtain ⟨gs, hgs⟩ := exists_expandsFields_of_names fs fun n hn => h n (List.mem_append_right _ hn)
    exact ⟨_, .cons hu hgs⟩

end

/-- There are finitely many names to lead to, so without a cycle every way through the declarations ends. -/
private theorem Aliases.Expandable.wellFounded (h : aliases.Expandable t) :
    WellFounded fun a b : { n // aliases.Leads t n } => aliases.Refers b a := by
  have hkeys : { n | aliases.Leads t n } ⊆ { n | n ∈ aliases.map Prod.fst } := by
    intro n hl
    obtain ⟨u, hu⟩ := Option.isSome_iff_exists.mp (h.declared n hl)
    obtain ⟨l, r, hlr, -⟩ := List.lookup_eq_some_iff.mp hu
    simp [hlr]
  exact wellFounded_of_acyclic ((List.finite_toSet _).subset hkeys) h.acyclic

theorem Aliases.Expandable.exists_expands (h : aliases.Expandable t) : ∃ u, Expands aliases t u := by
  have hname (a : { n // aliases.Leads t n }) : ∃ u, Expands aliases (.named a) u := by
    induction a using h.wellFounded.induction with
    | _ a ih =>
      obtain ⟨n, hl⟩ := a
      obtain ⟨u, hu⟩ := Option.isSome_iff_exists.mp (h.declared n hl)
      have hnext (k : String) (hk : k ∈ u.names) : ∃ v, Expands aliases (.named k) v :=
        ih ⟨k, hl.refers ⟨u, hu, hk⟩⟩ ⟨u, hu, hk⟩
      obtain ⟨v, hv⟩ := exists_expands_of_names u hnext
      exact ⟨v, .named hu hv⟩
  exact exists_expands_of_names t fun n hn => hname ⟨n, leads_of_mem hn⟩

end
end WhileStack.Source
