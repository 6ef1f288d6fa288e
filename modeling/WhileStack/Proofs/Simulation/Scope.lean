import WhileStack.Proofs.Lower.Derivation
import WhileStack.Proofs.Lower.Symbols
import WhileStack.Proofs.Reference.Stmt
import WhileStack.Proofs.Simulation.Typed

/-! Variables and their slots. Names are bound in the same order in the scopes of an evaluation and of the lowering, and
the slot of a name holds the value of the variable. -/
namespace WhileStack.Simulation
open Lower (Symbols)
open Machine (Local)
open Reference (lookupIn setFirst setVar)

/-- A variable that is unset or holds a value of its type, in its slot. -/
structure Binds (L : List Tree) (b : String × Local) (x : String × Tree) : Prop where
  name_eq : b.1 = x.1
  slot_eq : L[b.2.slot]? = some x.2
  typed : x.2 = .null ∨ HasTy x.2 b.2.ty

def Scoped (L : List Tree) (s : Symbols) (scopes : List Reference.Scope) : Prop :=
  List.Forall₂ (List.Forall₂ (Binds L)) (s.inner :: s.outer) scopes

variable {L : List Tree} {t u : Tree} {name : String} {l : Local} {slot : Nat}

section
variable {sc : Lower.Scope} {xs : Reference.Scope} {scs : List Lower.Scope} {xss : List Reference.Scope}

private theorem lookup_of_binds (h : List.Forall₂ (Binds L) sc xs) (name : String) :
    (sc.lookup name = none ∧ xs.lookup name = none) ∨
      ∃ l t, sc.lookup name = some l ∧ xs.lookup name = some t ∧ Binds L (name, l) (name, t) := by
  have h' : List.Forall₂ (fun b x => b.1 = x.1 ∧ Binds L (name, b.2) (name, x.2)) sc xs :=
    h.imp fun b x hb => ⟨hb.name_eq, rfl, hb.slot_eq, hb.typed⟩
  exact lookup_forall₂ h' name

private theorem lookupIn_of_binds (h : List.Forall₂ (List.Forall₂ (Binds L)) scs xss)
    (hl : (scs.findSome? fun scope => scope.lookup name) = some l) :
    ∃ t, lookupIn xss name = some t ∧ Binds L (name, l) (name, t) := by
  induction h with
  | nil => simp at hl
  | @cons sc xs scs xss hs _ ih =>
    rcases lookup_of_binds hs name with ⟨h₁, h₂⟩ | ⟨l', t, h₁, h₂, hb⟩
    · simp only [List.findSome?_cons, h₁] at hl
      obtain ⟨t, ht, hb⟩ := ih hl
      exact ⟨t, by simpa [lookupIn, List.findSome?_cons, h₂] using ht, hb⟩
    · simp only [List.findSome?_cons, h₁, Option.some.injEq] at hl
      subst hl
      exact ⟨t, by simp [lookupIn, h₂], hb⟩

private theorem binds_set (h : List.Forall₂ (Binds L) sc xs) (hn : ∀ b ∈ sc, b.2.slot ≠ slot) :
    List.Forall₂ (Binds (L.set slot t)) sc xs := by
  induction h with
  | nil => exact .nil
  | cons hb _ ih =>
    refine .cons ⟨hb.name_eq, ?_, hb.typed⟩ (ih fun b hm => hn b (by simp [hm]))
    rw [List.getElem?_set_ne (hn _ (by simp)).symm]
    exact hb.slot_eq

private theorem scopes_set (h : List.Forall₂ (List.Forall₂ (Binds L)) scs xss) (hn : ∀ b ∈ scs.flatten, b.2.slot ≠ slot) :
    List.Forall₂ (List.Forall₂ (Binds (L.set slot t))) scs xss := by
  induction h with
  | nil => exact .nil
  | cons hs _ ih =>
    have hs' := binds_set (t := t) hs fun b hb => hn b (List.mem_flatten_of_mem (List.mem_cons_self ..) hb)
    exact .cons hs' (ih fun b hb => hn b (List.mem_append_right _ hb))

private theorem setFirst_of_binds (h : List.Forall₂ (Binds L) sc xs) (hd : (sc.map fun b => b.2.slot).Nodup)
    (hl : sc.lookup name = some l) (hs : l.slot < L.length) (ht : t = .null ∨ HasTy t l.ty) :
    ∃ ys, setFirst name t xs = some ys ∧ List.Forall₂ (Binds (L.set l.slot t)) sc ys := by
  induction h with
  | nil => simp at hl
  | @cons b x sc xs hb hrest ih =>
    obtain ⟨n, l'⟩ := b
    obtain ⟨n', u⟩ := x
    obtain rfl : n = n' := hb.name_eq
    obtain ⟨hnot, hd⟩ := List.nodup_cons.mp hd
    by_cases hn : n = name
    · subst hn
      obtain rfl : l' = l := by simpa using hl
      refine ⟨(n, t) :: xs, by simp [setFirst], .cons ⟨rfl, by simp [hs], ht⟩ (binds_set hrest fun b hm he => ?_)⟩
      exact hnot (List.mem_map.mpr ⟨b, hm, he⟩)
    · have hl' : sc.lookup name = some l := by simpa [List.lookup_cons, beq_false_of_ne (Ne.symm hn)] using hl
      obtain ⟨ys, hys, hall⟩ := ih hd hl'
      refine ⟨(n, u) :: ys, by simp [setFirst, hn, hys], .cons ⟨rfl, ?_, hb.typed⟩ hall⟩
      have hne : l.slot ≠ l'.slot := fun he =>
        hnot (List.mem_map.mpr ⟨(name, l), mem_of_lookup hl', he⟩)
      rw [List.getElem?_set_ne hne]
      exact hb.slot_eq

private theorem setFirst_eq_none (h : List.Forall₂ (Binds L) sc xs) (hl : sc.lookup name = none) :
    setFirst name t xs = none := by
  induction h with
  | nil => rfl
  | @cons b x sc xs hb _ ih =>
    obtain ⟨n, l⟩ := b
    obtain ⟨n', u⟩ := x
    obtain rfl : n = n' := hb.name_eq
    by_cases hn : name = n
    · simp [hn] at hl
    · have hl' : sc.lookup name = none := by simpa [List.lookup_cons, beq_false_of_ne hn] using hl
      simp [setFirst, Ne.symm hn, ih hl']

private theorem setVar_of_binds (h : List.Forall₂ (List.Forall₂ (Binds L)) scs xss)
    (hd : (scs.flatten.map fun b => b.2.slot).Nodup) (hl : (scs.findSome? fun scope => scope.lookup name) = some l)
    (hs : l.slot < L.length) (ht : t = .null ∨ HasTy t l.ty) :
    ∃ yss, setVar name t xss = some yss ∧ List.Forall₂ (List.Forall₂ (Binds (L.set l.slot t))) scs yss := by
  induction h with
  | nil => simp at hl
  | @cons sc xs scs xss hsc hrest ih =>
    rw [List.flatten_cons, List.map_append] at hd
    obtain ⟨hd₁, hd₂, hdis⟩ := List.nodup_append.mp hd
    cases hlk : sc.lookup name with
    | none =>
      simp only [List.findSome?_cons, hlk] at hl
      obtain ⟨yss, hy, hall⟩ := ih hd₂ hl
      refine ⟨xs :: yss, by simp [setVar, setFirst_eq_none hsc hlk, hy], .cons (binds_set hsc fun b hb he => ?_) hall⟩
      obtain ⟨scope, hscope, hm⟩ := List.exists_of_findSome?_eq_some hl
      have hin : (name, l) ∈ scs.flatten := List.mem_flatten.mpr ⟨scope, hscope, mem_of_lookup hm⟩
      exact hdis _ (List.mem_map.mpr ⟨b, hb, rfl⟩) _ (List.mem_map.mpr ⟨_, hin, rfl⟩) he
    | some l' =>
      simp only [List.findSome?_cons, hlk, Option.some.injEq] at hl
      subst hl
      obtain ⟨ys, hy, hall⟩ := setFirst_of_binds hsc hd₁ hlk hs ht
      refine ⟨ys :: xss, by simp [setVar, hy], .cons hall (scopes_set hrest fun b hb he => ?_)⟩
      exact hdis _ (List.mem_map.mpr ⟨_, mem_of_lookup hlk, rfl⟩) _ (List.mem_map.mpr ⟨b, hb, rfl⟩) he.symm

end

namespace Scoped
variable {s s' : Symbols} {scopes : List Reference.Scope}

/-- A name that has a slot has a value there. -/
theorem lookup (h : Scoped L s scopes) (hl : s.lookup? name = some l) :
    ∃ t, lookupIn scopes name = some t ∧ Binds L (name, l) (name, t) := lookupIn_of_binds h hl

/-- A variable gets a new value in its slot; those of other names are elsewhere. -/
theorem set (h : Scoped L s scopes) (hv : s.Valid) (hl : s.lookup? name = some l) (hs : l.slot < L.length)
    (ht : t = .null ∨ HasTy t l.ty) : ∃ scopes', setVar name t scopes = some scopes' ∧ Scoped (L.set l.slot t) s scopes' :=
  setVar_of_binds h hv.nodup hl hs ht

/-- Slots that no name has may change. -/
theorem set_free (h : Scoped L s scopes) (hs : ∀ b ∈ s.visible, b.2.slot ≠ slot) : Scoped (L.set slot t) s scopes :=
  scopes_set h hs

theorem enter (h : Scoped L s scopes) : Scoped L s.enter ([] :: scopes) := .cons .nil h

theorem exit (h : Scoped L s scopes) (ho : s.outer ≠ []) : Scoped L s.exit (scopes.drop 1) := by
  obtain ⟨inner, outer, allocated⟩ := s
  cases outer with
  | nil => exact absurd rfl ho
  | cons scope outer =>
    cases h with
    | cons _ h => exact h

/-- A new name takes the next slot. -/
theorem declare {fr : Reference.Frame} {ty : Machine.Ty} (h : Scoped L s fr.scopes) (hv : s.Valid)
    (hd : s.declare name ty = .ok (l, s')) (hs : s'.size ≤ L.length) (ht : t = .null ∨ HasTy t ty) :
    Scoped (L.set l.slot t) s' (fr.declare name t).scopes := by
  obtain ⟨-, rfl, rfl⟩ := Symbols.declare_eq_ok hd
  obtain ⟨xs, xss, hxs, hxss, hsc⟩ := List.forall₂_cons_left_iff.mp
    (h.set_free (t := t) fun b hb => Nat.ne_of_lt (hv.bound b hb).2)
  have hlt : s.size < L.length := hs
  simp only [Reference.Frame.declare, hsc]
  exact .cons (.cons ⟨rfl, by simp [hlt], ht⟩ hxs) hxss

/-- The latest names are forgotten. -/
theorem shrink {fr : Reference.Frame} {news : Lower.Scope} (h : Scoped L s' fr.scopes)
    (hi : s'.inner = news ++ s.inner) (ho : s'.outer = s.outer) : Scoped L s (fr.shrink s.inner.length).scopes := by
  unfold Scoped at h ⊢
  rw [hi, ho] at h
  obtain ⟨xs, xss, hxs, hxss, hsc⟩ := List.forall₂_cons_left_iff.mp h
  simp only [Reference.Frame.shrink, hsc]
  refine .cons ?_ hxss
  have hlen : xs.length - s.inner.length = news.length := by
    have := hxs.length_eq
    simp only [List.length_append] at this
    omega
  rw [hlen]
  simpa using List.forall₂_drop news.length hxs

theorem width_eq {fr : Reference.Frame} (h : Scoped L s fr.scopes) : fr.width = s.inner.length := by
  obtain ⟨xs, xss, hxs, -, hsc⟩ := List.forall₂_cons_left_iff.mp h
  simp [Reference.Frame.width, hsc, hxs.length_eq]

end Scoped
end WhileStack.Simulation
