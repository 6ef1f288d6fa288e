import WhileStack.Proofs.Tree.Basic
import Mathlib.Data.Fintype.Card
import Mathlib.Data.List.Nodup
import Mathlib.Data.List.Perm.Subperm

/-! Values that read as trees, with the cells that are visited on the way. Where no cell is visited twice the values
share nothing with each other or within themselves. -/
namespace WhileStack

/-- One heap holds all that another does, where that does. -/
structure Heap.Extends (h h' : Heap) : Prop where
  size_le : h.cells.size ≤ h'.cells.size
  cell_eq : ∀ a, a < h.cells.size → h'.cell? a = h.cell? a
  objects_eq : h'.objects = h.objects

namespace Heap.Extends

theorem refl (h : Heap) : h.Extends h := ⟨Nat.le_refl _, fun _ _ => rfl, rfl⟩

theorem trans {h h' h'' : Heap} (e : h.Extends h') (e' : h'.Extends h'') : h.Extends h'' where
  size_le := Nat.le_trans e.size_le e'.size_le
  cell_eq a ha := by rw [e'.cell_eq a (Nat.lt_of_lt_of_le ha e.size_le), e.cell_eq a ha]
  objects_eq := e'.objects_eq.trans e.objects_eq

theorem alloc (h : Heap) (c : Cell) : h.Extends (h.alloc c).2 where
  size_le := by simp [Heap.alloc]
  cell_eq a ha := by simp [Heap.alloc, Heap.cell?, Array.getElem?_push, Nat.ne_of_lt ha]
  objects_eq := rfl

end Heap.Extends

theorem Heap.cell?_alloc (h : Heap) (c : Cell) : (h.alloc c).2.cell? h.cells.size = some c := by
  simp [Heap.alloc, Heap.cell?]

theorem Heap.lt_of_cell? {h : Heap} {a : Nat} {c : Cell} (e : h.cell? a = some c) : a < h.cells.size := by
  obtain ⟨hlt, -⟩ := Array.getElem?_eq_some_iff.mp e
  exact hlt

/-- The values read as the trees, one each; the last list names the cells in the order in which they are met. -/
inductive Forest (h : Heap) : List Value → List Tree → List Nat → Prop where
  | nil : Forest h [] [] []
  | leaf {v : Value} {vs ts F} : v.isRef = false → Forest h vs ts F → Forest h (v :: vs) (.leaf v :: ts) F
  | node {a : Nat} {c : Cell} {us vs ts F G} : h.cell? a = some c → Forest h c.children us F → Forest h vs ts G →
    Forest h (.ref a :: vs) (.node c.shape us :: ts) (a :: (F ++ G))

namespace Forest
variable {h h' : Heap} {v w : Value} {t u : Tree} {vs ws : List Value} {ts us : List Tree} {F G : List Nat}

theorem length_eq (f : Forest h vs ts F) : vs.length = ts.length := by
  induction f with
  | nil => rfl
  | leaf _ _ ih => simp [ih]
  | node _ _ _ _ ih => simp [ih]

theorem lt_size (f : Forest h vs ts F) : ∀ a ∈ F, a < h.cells.size := by
  induction f with
  | nil => simp
  | leaf _ _ ih => exact ih
  | node e _ _ ihc ih =>
    intro b hb
    rcases List.mem_cons.mp hb with rfl | hb
    · exact Heap.lt_of_cell? e
    · exact (List.mem_append.mp hb).elim (ihc b) (ih b)

/-- Only the cells that are visited matter. -/
theorem of_cells (f : Forest h vs ts F) (e : ∀ a ∈ F, h'.cell? a = h.cell? a) : Forest h' vs ts F := by
  induction f with
  | nil => exact .nil
  | leaf hv _ ih => exact .leaf hv (ih e)
  | node ec _ _ ihc ih =>
    refine .node ((e _ (by simp)).trans ec) (ihc fun a ha => e a (by simp [ha])) (ih fun a ha => e a (by simp [ha]))

theorem extend (f : Forest h vs ts F) (e : h.Extends h') : Forest h' vs ts F :=
  f.of_cells fun a ha => e.cell_eq a (f.lt_size a ha)

theorem append (f : Forest h vs ts F) (g : Forest h ws us G) : Forest h (vs ++ ws) (ts ++ us) (F ++ G) := by
  induction f with
  | nil => exact g
  | leaf hv _ ih => exact .leaf hv ih
  | node ec fc _ _ ih =>
    simp only [List.cons_append, List.append_assoc]
    exact .node ec fc ih

theorem cons (f : Forest h [v] [t] F) (g : Forest h vs ts G) : Forest h (v :: vs) (t :: ts) (F ++ G) := f.append g

theorem uncons (f : Forest h (v :: vs) ts F) :
    ∃ t us G K, ts = t :: us ∧ F = G ++ K ∧ Forest h [v] [t] G ∧ Forest h vs us K := by
  cases f with
  | leaf hv f => exact ⟨_, _, [], _, rfl, rfl, .leaf hv .nil, f⟩
  | node ec fc f => exact ⟨_, _, _ :: (_ ++ []), _, rfl, by simp, .node ec fc .nil, f⟩

theorem split (f : Forest h (vs ++ ws) ts F) :
    ∃ us us' G K, ts = us ++ us' ∧ F = G ++ K ∧ Forest h vs us G ∧ Forest h ws us' K := by
  induction vs generalizing ts F with
  | nil => exact ⟨[], ts, [], F, rfl, rfl, .nil, f⟩
  | cons v vs ih =>
    obtain ⟨t, rest, G, K, rfl, rfl, fv, f⟩ := f.uncons
    obtain ⟨us, us', G', K', rfl, rfl, fu, fw⟩ := ih f
    exact ⟨t :: us, us', G ++ G', K', rfl, by simp, fv.cons fu, fw⟩

/-- The reading of values is determined by the heap. -/
theorem unique (f : Forest h vs ts F) (g : Forest h vs us G) : ts = us ∧ F = G := by
  induction f generalizing us G with
  | nil => cases g; exact ⟨rfl, rfl⟩
  | leaf hv _ ih =>
    cases g with
    | leaf _ g => obtain ⟨rfl, rfl⟩ := ih g; exact ⟨rfl, rfl⟩
    | node => simp [Value.isRef] at hv
  | node ec _ _ ihc ih =>
    cases g with
    | leaf hv => simp [Value.isRef] at hv
    | node ec' gc g =>
      cases ec.symm.trans ec'
      obtain ⟨rfl, rfl⟩ := ihc gc
      obtain ⟨rfl, rfl⟩ := ih g
      exact ⟨rfl, rfl⟩

/-- Below the height there is a cell of each height. -/
private theorem exists_of_lt_heights (f : Forest h vs ts F) {k : Nat} (hk : k < Tree.heights ts) :
    ∃ a c us G, h.cell? a = some c ∧ Forest h c.children us G ∧ Tree.heights us = k := by
  induction f with
  | nil => simp [Tree.heights] at hk
  | leaf _ _ ih => exact ih (by simpa [Tree.heights, Tree.height] using hk)
  | @node a c us vs ts F G e fc _ ihc ih =>
    simp only [Tree.heights, Tree.height] at hk
    rcases Nat.lt_trichotomy k (Tree.heights us) with hlt | heq | hgt
    · exact ihc hlt
    · exact ⟨a, c, us, F, e, fc, heq.symm⟩
    · exact ih (by omega)

/-- The number of cells bounds the height, also where cells are visited more than once: a cell has one height. -/
theorem heights_le_size (f : Forest h vs ts F) : Tree.heights ts ≤ h.cells.size := by
  have hexists (k : Fin (Tree.heights ts)) : ∃ (a : Fin h.cells.size) (c : Cell) (us : List Tree) (G : List Nat),
      h.cell? a = some c ∧ Forest h c.children us G ∧ Tree.heights us = k := by
    obtain ⟨a, c, us, G, e, g, hk⟩ := f.exists_of_lt_heights k.isLt
    exact ⟨⟨a, Heap.lt_of_cell? e⟩, c, us, G, e, g, hk⟩
  choose cell c us G e g hheight using hexists
  have hinj : Function.Injective cell := by
    intro j k hjk
    have hc : c j = c k := Option.some.inj ((e j).symm.trans (hjk ▸ e k))
    have hus : us j = us k := ((g j).unique (hc ▸ g k)).1
    exact Fin.ext (by rw [← hheight j, ← hheight k, hus])
  simpa using Fintype.card_le_of_injective cell hinj

end Forest
end WhileStack
