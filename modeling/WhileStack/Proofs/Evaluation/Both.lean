import WhileStack.Eval.Run
import WhileStack.Proofs.Exec
import WhileStack.Proofs.Lookup
import WhileStack.Proofs.Reference.Stmt
import WhileStack.Proofs.Tree.Owned

/-! Evaluation with a heap beside evaluation over trees. Both print the same, and they stop for the same reason or come
to results that belong together. -/
namespace WhileStack

/-- The cells in front of `b` stay as they are. -/
structure Heap.Keeps (h : Heap) (b : Nat) (h' : Heap) : Prop where
  size_le : h.cells.size ≤ h'.cells.size
  cell_eq : ∀ a, a < b → h'.cell? a = h.cell? a
  objects_eq : h'.objects = h.objects

namespace Heap.Keeps
variable {b : Nat} {h h' h'' : Heap}

theorem of_extends (e : h.Extends h') (hb : b ≤ h.cells.size) : h.Keeps b h' :=
  ⟨e.size_le, fun a ha => e.cell_eq a (Nat.lt_of_lt_of_le ha hb), e.objects_eq⟩

theorem refl (b : Nat) (h : Heap) : h.Keeps b h := ⟨Nat.le_refl _, fun _ _ => rfl, rfl⟩

theorem trans (k : h.Keeps b h') (k' : h'.Keeps b h'') : h.Keeps b h'' :=
  ⟨Nat.le_trans k.size_le k'.size_le, fun a ha => (k'.cell_eq a ha).trans (k.cell_eq a ha),
    k'.objects_eq.trans k.objects_eq⟩

theorem write {a : Nat} (ha : b ≤ a) (c : Cell) : h.Keeps b (h.write a c) :=
  ⟨Nat.le_of_eq (h.size_write a c).symm, fun d hd => h.cell?_write_ne (by omega) c, rfl⟩

end Heap.Keeps

/-- What grows and then keeps all that was there at first has grown. -/
theorem Heap.Extends.after {h h' h'' : Heap} (e : h.Extends h') (k : h'.Keeps h.cells.size h'') : h.Extends h'' :=
  ⟨Nat.le_trans e.size_le k.size_le, fun a ha => (k.cell_eq a ha).trans (e.cell_eq a ha),
    k.objects_eq.trans e.objects_eq⟩

namespace Evaluation

/-- Two evaluations, one from a store and one from what that store has printed. -/
def Both {α β : Type} (st : Store) (x : Eval.Exec α) (y : Reference.Exec β) (Q : α → Store → β → Prop) : Prop :=
  match x st, y st.out with
  | .ok a st', .ok b o => st'.out = o ∧ Q a st' b
  | .error e st', .error e' o => st'.out = o ∧ e = e'
  | _, _ => False

namespace Both
variable {α β γ δ : Type} {st : Store} {x : Eval.Exec α} {y : Reference.Exec β} {Q Q' : α → Store → β → Prop}
  {R : γ → Store → δ → Prop} {f : α → Eval.Exec γ} {g : β → Reference.Exec δ}

theorem pure {a : α} {b : β} (h : Q a st b) : Both st (pure a) (pure b) Q := ⟨rfl, h⟩

theorem throw {e e' : Eval.Stop} (h : e = e') : Both st (throw e) (throw e') Q := ⟨rfl, h⟩

/-- Where one ends the other has ended too. -/
theorem bind (h : Both st x y Q) (hf : ∀ a st b, Q a st b → Both st (f a) (g b) R) :
    Both st (x >>= f) (y >>= g) R := by
  unfold Both at h
  split at h
  · rename_i a st' b o hx hy
    obtain ⟨rfl, hq⟩ := h
    have := hf a st' b hq
    unfold Both at this ⊢
    rw [Exec.bind_apply, Exec.bind_apply, hx, hy]
    exact this
  · rename_i e st' e' o hx hy
    unfold Both
    rw [Exec.bind_apply, Exec.bind_apply, hx, hy]
    exact h
  · exact h.elim

theorem imp (h : Both st x y Q) (hq : ∀ a st b, Q a st b → Q' a st b) : Both st x y Q' := by
  unfold Both at h ⊢
  split at h
  · exact ⟨h.1, hq _ _ _ h.2⟩
  · exact h
  · exact h.elim

/-- An evaluation may look at the store first. -/
theorem get {k : Store → Eval.Exec α} (h : Both st (k st) y Q) : Both st (MonadState.get >>= k) y Q := h

/-- A result that is only turned into another. -/
theorem map {c : α → γ} {d : β → δ} (h : Both st x y Q) (hq : ∀ a st b, Q a st b → R (c a) st (d b)) :
    Both st (x >>= fun a => Pure.pure (c a)) (y >>= fun b => Pure.pure (d b)) R :=
  h.bind fun a st b hab => .pure (hq a st b hab)

/-- The same for computations that change the frame of a function. -/
theorem bindRun {x : Eval.Run α} {y : Reference.Run β} {f : α → Eval.Run γ} {g : β → Reference.Run δ} {fr : Eval.Frame}
    {fr' : Reference.Frame} {Q : α × Eval.Frame → Store → β × Reference.Frame → Prop}
    {R : γ × Eval.Frame → Store → δ × Reference.Frame → Prop} (h : Both st (x fr) (y fr') Q)
    (hf : ∀ r st r', Q r st r' → Both st (f r.1 r.2) (g r'.1 r'.2) R) : Both st ((x >>= f) fr) ((y >>= g) fr') R :=
  h.bind hf

theorem liftFault {α : Type} (r : Except Fault α) :
    Both st (Eval.liftFault r) (Reference.liftFault r) fun a st' b => st' = st ∧ a = b ∧ r = .ok a := by
  cases r with
  | ok a => exact .pure ⟨rfl, rfl, rfl⟩
  | error e => exact .throw rfl

theorem liftAlias {α : Type} (r : Except Source.AliasError α) :
    Both st (Eval.liftAlias r) (Reference.liftAlias r) fun a st' b => st' = st ∧ a = b := by
  cases r with
  | ok a => exact .pure ⟨rfl, rfl⟩
  | error e => exact .throw rfl

/-- Operations that fail alike or give a value and a tree. -/
theorem onHeap {op : Heap → Except ValueError (Value × Heap)} {r : Except ValueError Tree}
    {Q : Value → Store → Tree → Prop}
    (h : (∃ e, op st.heap = .error e ∧ r = .error e) ∨
      ∃ v h' t, op st.heap = .ok (v, h') ∧ r = .ok t ∧ Q v { st with heap := h' } t) :
    Both st (Eval.onHeap op) (Reference.liftValue r) Q := by
  rcases h with ⟨e, hop, rfl⟩ | ⟨v, h', t, hop, rfl, hq⟩
  · have he : Eval.onHeap op st = .error (.badOperand e) st := by simp [Eval.onHeap, hop]
    simp [Both, he, Reference.liftValue]
  · have he : Eval.onHeap op st = .ok v { st with heap := h' } := by simp [Eval.onHeap, hop]
    simp [Both, he, Reference.liftValue, hq]

/-- The kind of a value is that of its tree. -/
theorem throwTag {v : Value} {t : Tree} {F : List Nat} (f : Forest st.heap [v] [t] F) (e : Tag → Eval.Stop) :
    Both st (Eval.tagOf v >>= fun tag => MonadExcept.throw (e tag)) (MonadExcept.throw (e t.tag)) Q := by
  have h : (Eval.tagOf v >>= fun tag => (MonadExcept.throw (e tag) : Eval.Exec α)) st
      = .error (e (st.heap.tag v)) st := rfl
  unfold Both
  rw [h, f.tag_eq]
  exact ⟨rfl, rfl⟩

end Both

/-- A new value that reads as a tree, in a heap that has grown. -/
def Gives (h : Heap) (v : Value) (st : Store) (t : Tree) : Prop := h.Extends st.heap ∧ Fresh h.cells.size st.heap [v] [t]

def GivesAll (h : Heap) (vs : List Value) (st : Store) (ts : List Tree) : Prop :=
  h.Extends st.heap ∧ Fresh h.cells.size st.heap vs ts

theorem Gives.leaf {h : Heap} {st : Store} {v : Value} (e : h.Extends st.heap) (hv : v.isRef = false) :
    Gives h v st (.leaf v) := ⟨e, .leaf _ _ hv⟩

/-- Variables with their values and the trees of these. -/
abbrev Joint := List (List (String × Value × Tree))

namespace Joint

def values (Γ : Joint) : List Eval.Scope := Γ.map fun s => s.map fun e => (e.1, e.2.1)

def trees (Γ : Joint) : List Reference.Scope := Γ.map fun s => s.map fun e => (e.1, e.2.2)

def roots (Γ : Joint) : Roots := Γ.flatten.map Prod.snd

def find (Γ : Joint) (name : String) : Option (Value × Tree) := Γ.findSome? fun s => s.lookup name

variable {Γ : Joint} {name : String} {r : Value × Tree}

private theorem findSome?_map {γ : Type} (f : Value × Tree → γ) (Γ : Joint) (name : String) :
    (Γ.map fun s => s.map fun e => (e.1, f e.2)).findSome? (fun s => s.lookup name) = (Γ.find name).map f := by
  induction Γ with
  | nil => rfl
  | cons s Γ ih =>
    simp only [find, List.map_cons, List.findSome?_cons] at ih ⊢
    rw [ih, lookup_map f s name]
    cases s.lookup name <;> rfl

theorem lookupIn_values (Γ : Joint) (name : String) : Eval.lookupIn Γ.values name = (Γ.find name).map Prod.fst :=
  findSome?_map Prod.fst Γ name

theorem lookupIn_trees (Γ : Joint) (name : String) : Reference.lookupIn Γ.trees name = (Γ.find name).map Prod.snd :=
  findSome?_map Prod.snd Γ name

theorem mem_roots (h : Γ.find name = some r) : r ∈ Γ.roots := by
  obtain ⟨s, hs, hl⟩ := List.exists_of_findSome?_eq_some h
  exact List.mem_map.mpr ⟨(name, r), List.mem_flatten.mpr ⟨s, hs, mem_of_lookup hl⟩, rfl⟩

end Joint

/-- The variables read as their trees, each for itself. -/
def Seen (h : Heap) (Γ : Joint) : Prop := ∀ r ∈ Γ.roots, Fresh 0 h [r.1] [r.2]

theorem Seen.extend {h h' : Heap} {Γ : Joint} (s : Seen h Γ) (e : h.Extends h') : Seen h' Γ :=
  fun r hr => (s r hr).extend e

/-- Calls on new values change nothing else and give a new value. -/
def Calls (program : Source.Program) (call : Source.FunDecl → List Value → Eval.Exec Value)
    (callTree : Source.FunDecl → List Tree → Reference.Exec Tree) : Prop :=
  ∀ b, ∀ f ∈ program.functions, ∀ vs ts st, b ≤ st.heap.cells.size → Fresh b st.heap vs ts →
    Both st (call f vs) (callTree f ts) fun v st' t => st.heap.Keeps b st'.heap ∧ Fresh b st'.heap [v] [t]

/-- A function that is run, with the calls that it can make. -/
structure Host where
  program : Source.Program
  function : String
  rounds : Nat
  call : Source.FunDecl → List Value → Eval.Exec Value
  callTree : Source.FunDecl → List Tree → Reference.Exec Tree
  calls : Calls program call callTree

namespace Host

abbrev eval (h : Host) : Eval.Host := ⟨h.program, h.function, h.call, h.rounds⟩

abbrev reference (h : Host) : Reference.Host := ⟨.literal, h.program, h.function, h.callTree, h.rounds⟩

/-- The same in one of the readings. -/
abbrev read (h : Host) (reading : Reference.Reading) : Reference.Host :=
  ⟨reading, h.program, h.function, h.callTree, h.rounds⟩

abbrev view (h : Host) (Γ : Joint) : Eval.View := ⟨h.program, h.function, Γ.values, h.call⟩

abbrev treeView (h : Host) (Γ : Joint) : Reference.View := h.reference.view Γ.trees

end Host

end Evaluation
end WhileStack
