import WhileStack.Proofs.Exec
import WhileStack.Proofs.Tree.Machine
import WhileStack.Proofs.Tree.Owned
import Mathlib.Data.List.Forall2

/-! The machine with a heap takes the steps of the machine over trees. Local variables and the operands that are trees
of their own share nothing, in all frames together. -/
namespace WhileStack.OnTrees
open Machine (Program Method Instr Signature Const Arith Dest)
open Operand (own)

/-- A value on the stack that is a place is what its path leads to. -/
def Stands (h : Heap) (locals : List Value) (v : Value) : Operand → Prop
  | .own _ => True
  | .place slot path => ∃ x, locals[slot]? = some x ∧ h.follow x path = some v

/-- The operands that are trees of their own. -/
def ownRoots : List Value → List Operand → Roots
  | v :: vs, .own t :: xs => (v, t) :: ownRoots vs xs
  | _ :: vs, .place _ _ :: xs => ownRoots vs xs
  | _, _ => []

/-- What a frame holds: operands first, then local variables. -/
def frameRoots (locals stack : List Value) (L : List Tree) (S : List Operand) : Roots := ownRoots stack S ++ locals.zip L

structure Holds (h : Heap) (locals stack : List Value) (L : List Tree) (S : List Operand) : Prop where
  length_eq : locals.length = L.length
  stands : List.Forall₂ (Stands h locals) stack S

/-- One frame beside what the others hold. -/
structure Matches (st : Store) (locals stack : List Value) (b : Body) (rest : Roots) : Prop where
  out_eq : st.out = b.out
  objects_eq : st.heap.objects = b.objects
  holds : Holds st.heap locals stack b.locals b.stack
  owned : Owned 0 st.heap (frameRoots locals stack b.locals b.stack ++ rest)

/-- What stands at one place of two lists stands together in both. -/
theorem mem_zip {α β : Type} {xs : List α} {ys : List β} {i : Nat} {x : α} {y : β} (hx : xs[i]? = some x)
    (hy : ys[i]? = some y) : (x, y) ∈ xs.zip ys :=
  List.mem_of_getElem? (i := i) (List.getElem?_zip_eq_some.mpr ⟨hx, hy⟩)

theorem Holds.of_follow {h k : Heap} {locals stack : List Value} {L : List Tree} {S : List Operand}
    (m : Holds h locals stack L S) (e : ∀ r ∈ locals.zip L, ∀ q, k.follow r.1 q = h.follow r.1 q) :
    Holds k locals stack L S where
  length_eq := m.length_eq
  stands := m.stands.imp fun v x hx => by
    cases x with
    | own => trivial
    | place slot path =>
      obtain ⟨y, hy, hf⟩ := hx
      obtain ⟨t, ht⟩ : ∃ t, L[slot]? = some t := by
        have hs := (List.getElem?_eq_some_iff.mp hy).1
        exact ⟨_, List.getElem?_eq_getElem (m.length_eq ▸ hs)⟩
      exact ⟨y, hy, (e _ (mem_zip hy ht) path).trans hf⟩

theorem ownRoots_reverse (vs Sv : List Value) (ts : List Tree) (S : List Operand) (hl : vs.length = ts.length) :
    ownRoots (vs.reverse ++ Sv) ((ts.map own).reverse ++ S) = (vs.zip ts).reverse ++ ownRoots Sv S := by
  induction vs generalizing ts Sv S with
  | nil => cases ts with
    | nil => rfl
    | cons => simp at hl
  | cons v vs ih => cases ts with
    | nil => simp at hl
    | cons t ts => simpa [ownRoots] using ih (v :: Sv) ts (own t :: S) (by simpa using hl)

namespace Matches
variable {st : Store} {locals stack : List Value} {v w : Value} {t u : Tree} {x : Operand} {L : List Tree}
  {S : List Operand} {k : Nat} {o : String} {rest : Roots} {b : Body}

theorem pushLeaf (m : Matches st locals stack ⟨L, S, k, o⟩ rest) (hv : v.isRef = false) :
    Matches st locals (v :: stack) ⟨L, own (.leaf v) :: S, k, o⟩ rest :=
  ⟨m.out_eq, m.objects_eq, ⟨m.holds.length_eq, .cons trivial m.holds.stands⟩, m.owned.leaf hv⟩

theorem popOwn (m : Matches st locals stack ⟨L, own t :: S, k, o⟩ rest) :
    ∃ v vs F, stack = v :: vs ∧ Matches st locals vs ⟨L, S, k, o⟩ rest ∧ Forest st.heap [v] [t] F := by
  obtain ⟨ho, hk, ⟨hl, hs⟩, hown⟩ := m
  obtain ⟨v, vs, -, hs', rfl⟩ := List.forall₂_cons_right_iff.mp hs
  obtain ⟨F, f, -⟩ := hown.forest (v := v) (t := t) (by simp [frameRoots, ownRoots])
  exact ⟨v, vs, F, rfl, ⟨ho, hk, ⟨hl, hs'⟩, hown.drop⟩, f⟩

theorem popLeaf {u : Value} (m : Matches st locals stack ⟨L, own (.leaf u) :: S, k, o⟩ rest) :
    ∃ vs, stack = u :: vs ∧ Matches st locals vs ⟨L, S, k, o⟩ rest := by
  obtain ⟨v, vs, F, rfl, m', f⟩ := m.popOwn
  cases f
  exact ⟨vs, rfl, m'⟩

theorem popTop (m : Matches st locals (v :: stack) ⟨L, x :: S, k, o⟩ rest) : Matches st locals stack ⟨L, S, k, o⟩ rest := by
  obtain ⟨ho, hk, ⟨hl, hs⟩, hown⟩ := m
  obtain ⟨-, hs'⟩ := List.forall₂_cons.mp hs
  cases x with
  | own => exact ⟨ho, hk, ⟨hl, hs'⟩, hown.drop⟩
  | place => exact ⟨ho, hk, ⟨hl, hs'⟩, hown⟩

/-- A value that an operation made is pushed; nothing that was there has changed. -/
theorem pushNew (m : Matches st locals stack ⟨L, S, k, o⟩ rest) {h : Heap} (e : st.heap.Extends h)
    (f : Fresh st.heap.cells.size h [v] [t]) :
    Matches { st with heap := h } locals (v :: stack) ⟨L, own t :: S, k, o⟩ rest ∧
      ∀ r ∈ rest, ∀ q, h.follow r.1 q = st.heap.follow r.1 q := by
  have hf : ∀ r ∈ frameRoots locals stack L S ++ rest, ∀ q, h.follow r.1 q = st.heap.follow r.1 q :=
    fun r hr q => m.owned.follow_extend (t := r.2) e hr q
  have hh := m.holds.of_follow (k := h) fun r hr => hf r (by simp [frameRoots, hr])
  exact ⟨⟨m.out_eq, e.objects_eq.trans m.objects_eq, ⟨hh.length_eq, .cons trivial hh.stands⟩,
    m.owned.add e (Nat.zero_le _) f⟩, fun r hr => hf r (by simp [hr])⟩

/-- Operands that go into one instruction, the lowest first, are taken off the stack and kept aside. -/
theorem take {ts : List Tree} (m : Matches st locals stack ⟨L, (ts.map own).reverse ++ S, k, o⟩ rest) :
    ∃ (vs Sv : List Value), stack = vs.reverse ++ Sv ∧ vs.length = ts.length ∧
      Matches st locals Sv ⟨L, S, k, o⟩ (vs.zip ts ++ rest) := by
  obtain ⟨ho, hk, ⟨hl, hs⟩, hown⟩ := m
  have h₁ := List.forall₂_take_append _ _ _ hs
  have h₂ := List.forall₂_drop_append _ _ _ hs
  have hst := List.take_append_drop (List.map own ts).reverse.length stack
  generalize stack.take (List.map own ts).reverse.length = us at h₁ hst
  generalize stack.drop (List.map own ts).reverse.length = Sv at h₂ hst
  subst hst
  have hul : us.reverse.length = ts.length := by simpa using h₁.length_eq
  refine ⟨us.reverse, Sv, by simp, hul, ho, hk, ⟨hl, h₂⟩, hown.perm ?_⟩
  have := ownRoots_reverse us.reverse Sv ts S hul
  rw [List.reverse_reverse] at this
  simp only [frameRoots, this, List.append_assoc]
  refine ((List.reverse_perm _).append_right _).trans ?_
  rw [← List.append_assoc, ← List.append_assoc, ← List.append_assoc (ownRoots Sv S), ← List.append_assoc _ _ rest]
  refine List.Perm.append_right rest ?_
  rw [List.append_assoc]
  exact List.perm_append_comm

/-- Operands that were taken off the stack become the children of a new list or record. -/
theorem gather {vs : List Value} {ts : List Tree} (m : Matches st locals stack ⟨L, S, k, o⟩ (vs.zip ts ++ rest))
    (hl : vs.length = ts.length) {c : Cell} (hc : c.children = vs) :
    Matches { st with heap := (st.heap.alloc c).2 } locals ((st.heap.alloc c).1 :: stack)
        ⟨L, own (.node c.shape ts) :: S, k, o⟩ rest ∧
      ∀ r ∈ rest, ∀ q, (st.heap.alloc c).2.follow r.1 q = st.heap.follow r.1 q := by
  have e := Heap.Extends.alloc st.heap c
  have hf : ∀ r ∈ frameRoots locals stack L S ++ (vs.zip ts ++ rest), ∀ q,
      (st.heap.alloc c).2.follow r.1 q = st.heap.follow r.1 q := fun r hr q => m.owned.follow_extend (t := r.2) e hr q
  have hh := m.holds.of_follow (k := (st.heap.alloc c).2) fun r hr => hf r (by simp [frameRoots, hr])
  have hp : (frameRoots locals stack L S ++ (vs.zip ts ++ rest)).Perm
      (vs.zip ts ++ (frameRoots locals stack L S ++ rest)) := by
    rw [← List.append_assoc, ← List.append_assoc]
    exact List.perm_append_comm.append_right rest
  exact ⟨⟨m.out_eq, m.objects_eq, ⟨hh.length_eq, .cons trivial hh.stands⟩,
    (m.owned.perm hp).alloc hl (Nat.zero_le _) hc⟩, fun r hr => hf r (by simp [hr])⟩

/-- The tree of an operand is what its value reads as. -/
theorem read (m : Matches st locals stack ⟨L, x :: S, k, o⟩ rest) (hx : x.read L = some t) :
    ∃ v vs F, stack = v :: vs ∧ Forest st.heap [v] [t] F ∧ F.Nodup ∧ Stands st.heap locals v x := by
  obtain ⟨-, -, ⟨hl, hs⟩, hown⟩ := m
  obtain ⟨v, vs, hv, -, rfl⟩ := List.forall₂_cons_right_iff.mp hs
  cases x with
  | own u =>
    obtain rfl : u = t := by simpa [Operand.read] using hx
    obtain ⟨F, f, hn, -⟩ := hown.forest (v := v) (t := u) (by simp [frameRoots, ownRoots])
    exact ⟨v, vs, F, rfl, f, hn, hv⟩
  | place slot path =>
    obtain ⟨y, hy, hf⟩ := hv
    obtain ⟨s, hs, hu⟩ := Option.bind_eq_some_iff.mp hx
    obtain ⟨F, f, hn, -⟩ := hown.forest (v := y) (t := s) (by simp [frameRoots, mem_zip hy hs])
    obtain ⟨w, G, hw, g, hG⟩ := f.follow hu
    cases hf.symm.trans hw
    exact ⟨v, vs, G, rfl, g, hn.sublist hG, y, hy, hf⟩

/-- A child of the top operand takes its place: of a tree the subtree, of a place the place inside. -/
theorem child {s : Shape} {ts : List Tree} {i : Nat} (m : Matches st locals (w :: stack) ⟨L, x :: S, k, o⟩ rest)
    (hx : x.read L = some (.node s ts)) (hu : ts[i]? = some u) :
    ∃ a c v, w = .ref a ∧ st.heap.cell? a = some c ∧ c.shape = s ∧ c.children.length = ts.length ∧
      c.children[i]? = some v ∧ Matches st locals (v :: stack) ⟨L, x.child i u :: S, k, o⟩ rest := by
  obtain ⟨w', vs, F, hw, f, hn, hst⟩ := m.read hx
  cases hw
  obtain ⟨a, c, G, rfl, e, hsh, rfl, fc⟩ := f.opened
  have hu' : (Tree.node s ts).get? [i] = some u := by simp [Tree.get?, hu]
  obtain ⟨v, K, hv, fv, -⟩ := f.follow hu'
  have hvc : c.children[i]? = some v := by simpa [Heap.follow, e] using hv
  refine ⟨a, c, v, rfl, e, hsh, fc.length_eq, hvc, ?_⟩
  obtain ⟨ho, hk, ⟨hl, hs⟩, hown⟩ := m
  obtain ⟨-, hs'⟩ := List.forall₂_cons.mp hs
  cases x with
  | own t =>
    obtain rfl : t = .node s ts := by simpa [Operand.read] using hx
    obtain ⟨v', hv', hown'⟩ := Owned.follow hown hu'
    cases hv.symm.trans hv'
    exact ⟨ho, hk, ⟨hl, .cons trivial hs'⟩, hown'⟩
  | place slot path =>
    obtain ⟨y, hy, hf⟩ := hst
    cases u with
    | leaf u =>
      cases fv with
      | leaf hr => exact ⟨ho, hk, ⟨hl, .cons trivial hs'⟩, hown.leaf hr⟩
    | node r us =>
      refine ⟨ho, hk, ⟨hl, .cons ⟨y, hy, ?_⟩ hs'⟩, hown⟩
      rw [Heap.follow_append, hf]
      exact hv

theorem set_zip {α β : Type} (xs : List α) (ys : List β) (i : Nat) (x : α) (y : β) :
    (xs.set i x).zip (ys.set i y) = (xs.zip ys).set i (x, y) := by
  induction xs generalizing ys i with
  | nil => simp
  | cons a xs ih => cases ys with
    | nil => simp
    | cons b ys => cases i with
      | zero => rfl
      | succ i => simp [ih]

private theorem zip_modify {locals : List Value} {slot : Nat} {y : Value} (hy : locals[slot]? = some y)
    (ht : L[slot]? = some t) (g : Tree → Tree) : locals.zip (L.modify slot g) = (locals.zip L).set slot (y, g t) := by
  rw [← set_zip, List.modify_eq_set_getElem?, ht]
  obtain ⟨hi, rfl⟩ := List.getElem?_eq_some_iff.mp hy
  simp

/-- A child of an operand is replaced, in the heap and in the tree of the variable. -/
theorem write {s : Shape} {ts : List Tree} (m : Matches st locals [w, v] ⟨L, [x, own u], k, o⟩ rest)
    (hx : x.read L = some (.node s ts)) :
    ∃ a c, w = .ref a ∧ st.heap.cell? a = some c ∧ c.shape = s ∧ c.children.length = ts.length ∧
      ∀ i c', i < ts.length → c'.shape = c.shape → c'.children = c.children.set i v →
        Matches { st with heap := st.heap.write a c' } locals [] ⟨x.write L i u, [], k, o⟩ rest ∧
          ∀ r ∈ rest, ∀ q, (st.heap.write a c').follow r.1 q = st.heap.follow r.1 q := by
  obtain ⟨w', vs, F, hw, f, hn, hst⟩ := m.read hx
  cases hw
  obtain ⟨a, c, G, rfl, e, hsh, rfl, fc⟩ := f.opened
  refine ⟨a, c, rfl, e, hsh, fc.length_eq, fun i c' hi hcs hcc => ?_⟩
  rw [← fc.length_eq] at hi
  obtain ⟨ho, hk, ⟨hl, -⟩, hown⟩ := m
  cases x with
  | own t =>
    obtain rfl : t = .node s ts := by simpa [Operand.read] using hx
    have hown' := hown.perm (List.Perm.swap (v, u) (.ref a, .node s ts) (locals.zip L ++ rest))
    obtain ⟨-, hp, hq⟩ := hown'.put (show st.heap.follow (.ref a) [] = some (.ref a) from rfl) e hi hcs hcc
    exact ⟨⟨ho, hk, ⟨hl, .nil⟩, hp.drop⟩, fun r hr => hq r (by simp [hr])⟩
  | place slot path =>
    obtain ⟨y, hy, hf⟩ := hst
    obtain ⟨t, ht, hg⟩ := Option.bind_eq_some_iff.mp hx
    have hz : (locals.zip L)[slot]? = some (y, t) := List.getElem?_zip_eq_some.mpr ⟨hy, ht⟩
    obtain ⟨hlt, hze⟩ := List.getElem?_eq_some_iff.mp hz
    have hperm : ((v, u) :: (locals.zip L ++ rest)).Perm ((v, u) :: (y, t) :: ((locals.zip L).eraseIdx slot ++ rest)) := by
      have := List.getElem_cons_eraseIdx_perm hlt
      rw [hze] at this
      exact List.Perm.cons _ (this.symm.append_right rest)
    obtain ⟨-, hp, hq⟩ := (hown.perm hperm).put hf e hi hcs hcc
    refine ⟨⟨ho, hk, ⟨by simp [Operand.write, hl], .nil⟩, hp.perm ?_⟩, fun r hr => hq r (by simp [hr])⟩
    simp only [frameRoots, ownRoots, Operand.write, zip_modify hy ht, List.nil_append]
    exact ((List.set_perm_cons_eraseIdx hlt _).symm.append_right rest)

/-- The only operand goes into a variable. -/
theorem store {slot : Nat} (m : Matches st locals [v] ⟨L, [own t], k, o⟩ rest) (hs : slot < L.length) :
    Matches st (locals.set slot v) [] ⟨L.set slot t, [], k, o⟩ rest := by
  obtain ⟨ho, hk, ⟨hl, -⟩, hown⟩ := m
  refine ⟨ho, hk, ⟨by simp [hl], .nil⟩, hown.subperm ?_⟩
  simp only [frameRoots, ownRoots, set_zip, List.nil_append, List.cons_append]
  rw [← List.cons_append]
  refine (List.subperm_append_right rest).mpr ?_
  have hlt : slot < (locals.zip L).length := by simp [hl, hs]
  exact (List.set_perm_cons_eraseIdx hlt _).subperm.trans
    ((List.subperm_cons _).mpr (List.eraseIdx_sublist _ _).subperm)

theorem load {slot : Nat} (m : Matches st locals stack ⟨L, S, k, o⟩ rest) (ht : L[slot]? = some t) :
    ∃ v, locals[slot]? = some v ∧ (v = .null → t = .null) ∧
      Matches st locals (v :: stack) ⟨L, .found slot [] t :: S, k, o⟩ rest := by
  obtain ⟨v, hv⟩ : ∃ v, locals[slot]? = some v := by
    have hs := (List.getElem?_eq_some_iff.mp ht).1
    exact ⟨_, List.getElem?_eq_getElem (m.holds.length_eq ▸ hs)⟩
  obtain ⟨F, f, -⟩ := m.owned.forest (v := v) (t := t) (by simp [frameRoots, mem_zip hv ht])
  refine ⟨v, hv, ?_, ?_⟩
  · rintro rfl
    cases f
    rfl
  · obtain ⟨ho, hk, ⟨hl, hs⟩, hown⟩ := m
    cases f with
    | leaf hr => exact ⟨ho, hk, ⟨hl, .cons trivial hs⟩, hown.leaf hr⟩
    | node => exact ⟨ho, hk, ⟨hl, .cons ⟨_, hv, by simp [Heap.follow]⟩ hs⟩, hown⟩

end Matches
end WhileStack.OnTrees
