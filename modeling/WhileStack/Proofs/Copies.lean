import WhileStack.Proofs.Acyclic
import WhileStack.Proofs.Tree.Frame

/-! Deep copies. A copy is made of new cells, one for each place of the structure, and is equal to what it was made from.
What is later put into the one is not seen in the other. -/
namespace WhileStack
open WhileStack.Tree (heights)

namespace Heap

mutual

/-- Copying, however deep the structure is: the elements and fields first, from left to right, and then a new list or
record of the copies. -/
inductive Copies : Heap → Value → Value → Heap → Prop where
  | leaf {h v} : v.isRef = false → Copies h v v h
  | ref {h h' a c ws} : h.cell? a = some c → CopiesAll h c.children ws h' →
    Copies h (.ref a) (h'.alloc (c.refill ws)).1 (h'.alloc (c.refill ws)).2

inductive CopiesAll : Heap → List Value → List Value → Heap → Prop where
  | nil {h} : CopiesAll h [] [] h
  | cons {h h₁ h₂ v w vs ws} : Copies h v w h₁ → CopiesAll h₁ vs ws h₂ → CopiesAll h (v :: vs) (w :: ws) h₂

end

/-- The values that are met on the way through lists and records. -/
inductive Holds (h : Heap) (v : Value) : Value → Prop where
  | self : Holds h v v
  | child {a c w} : h.Leads v a → h.cell? a = some c → w ∈ c.children → Holds h v w

/-- The lists and records of a value are all there, lead in no circle, and hold neither missing values nor argument
vectors. They may be shared. -/
structure Copyable (h : Heap) (v : Value) : Prop where
  live : ∀ a, h.Leads v a → (h.cell? a).isSome = true
  acyclic : ∀ a, h.Leads v a → ¬ Relation.TransGen h.Within a a
  plain : ∀ w, h.Holds v w → w ≠ .null ∧ ∀ es, w ≠ .array es

section
variable {h : Heap} {v w : Value}

/-- There are finitely many cells, so without a circle every way through them ends. -/
private theorem Copyable.wellFounded (hv : h.Copyable v) : WellFounded fun b a : { a // h.Leads v a } => h.Within a b := by
  have hsub : { a | h.Leads v a } ⊆ { a | a < h.cells.size } := by
    intro a hl
    obtain ⟨c, hc⟩ := Option.isSome_iff_exists.mp (hv.live a hl)
    exact lt_of_cell? hc
  exact wellFounded_of_acyclic ((Set.finite_lt_nat h.cells.size).subset hsub) hv.acyclic

private theorem reads_of_cell (hp : w ≠ .null ∧ ∀ es, w ≠ .array es)
    (hcell : ∀ a, w = .ref a → ∃ t, h.Reads (.ref a) t ∧ t.isComparable = true) :
    ∃ t, h.Reads w t ∧ t.isComparable = true := by
  rcases w.isRef_cases with hr | ⟨a, rfl⟩
  · refine ⟨.leaf w, ⟨[], .leaf hr .nil⟩, ?_⟩
    cases w with
    | null => exact absurd rfl hp.1
    | array es => exact absurd rfl (hp.2 es)
    | ref => cases hr
    | _ => rfl
  · exact hcell a rfl

/-- A value that may be copied reads as a tree that is equal to itself. -/
theorem Copyable.reads (hv : h.Copyable v) : ∃ t, h.Reads v t ∧ t.isComparable = true := by
  have hcell (a : { a // h.Leads v a }) : ∃ t, h.Reads (.ref a) t ∧ t.isComparable = true := by
    induction a using hv.wellFounded.induction with
    | _ a ih =>
      obtain ⟨a, hl⟩ := a
      obtain ⟨c, hc⟩ := Option.isSome_iff_exists.mp (hv.live a hl)
      have hchild (w : Value) (hw : w ∈ c.children) : ∃ t, h.Reads w t ∧ t.isComparable = true := by
        apply reads_of_cell (hv.plain w (.child hl hc hw))
        rintro b rfl
        obtain ⟨i, hi⟩ := List.mem_iff_getElem?.mp hw
        exact ih ⟨b, hl.child ⟨c, hc, hi⟩⟩ ⟨i, c, hc, hi⟩
      obtain ⟨ts, F, f, hts⟩ := reads_all hchild
      exact ⟨_, ⟨_, .node hc f .nil⟩, Tree.areComparable_iff.mpr hts⟩
  apply reads_of_cell (hv.plain v .self)
  rintro a rfl
  exact hcell ⟨a, .here⟩

end

mutual

theorem Copies.unique : ∀ {h : Heap} {v w w' : Value} {g g' : Heap}, Copies h v w g → Copies h v w' g' → w = w' ∧ g = g'
  | _, _, _, _, _, _, .leaf _, .leaf _ => ⟨rfl, rfl⟩
  | _, _, _, _, _, _, .ref e c, .ref e' c' => by
    cases e.symm.trans e'
    obtain ⟨rfl, rfl⟩ := c.unique c'
    exact ⟨rfl, rfl⟩
  | _, _, _, _, _, _, .ref _ _, .leaf hr => by cases hr
  | _, _, _, _, _, _, .leaf hr, .ref _ _ => by cases hr

theorem CopiesAll.unique : ∀ {h : Heap} {vs ws ws' : List Value} {g g' : Heap}, CopiesAll h vs ws g →
    CopiesAll h vs ws' g' → ws = ws' ∧ g = g'
  | _, _, _, _, _, _, .nil, .nil => ⟨rfl, rfl⟩
  | _, _, _, _, _, _, .cons c cs, .cons c' cs' => by
    obtain ⟨rfl, rfl⟩ := c.unique c'
    obtain ⟨rfl, rfl⟩ := cs.unique cs'
    exact ⟨rfl, rfl⟩

end

end Heap

/-- The bound on the depth of a copy is never met. -/
theorem Forest.copiesAll {h g : Heap} {vs : List Value} {ts : List Tree} {F : List Nat} {n : Nat} (f : Forest h vs ts F)
    (hn : heights ts ≤ n) (e : h.Extends g) :
    Heap.CopiesAll g vs (Heap.copyAll (Heap.copyTo n) g vs).1 (Heap.copyAll (Heap.copyTo n) g vs).2 := by
  induction f generalizing n g with
  | nil => exact .nil
  | leaf hv _ ih =>
    simp only [heights, Tree.height, Nat.zero_max] at hn
    simp only [Heap.copyAll, Heap.copyTo_leaf n g hv]
    exact .cons (.leaf hv) (ih hn e)
  | @node a c us vs ts F G ec fc _ ihc ih =>
    simp only [heights, Tree.height] at hn
    obtain ⟨k, rfl⟩ : ∃ k, n = k + 1 := ⟨n - 1, by omega⟩
    have he : g.cell? a = some c := (e.cell_eq a (Heap.lt_of_cell? ec)).trans ec
    have hchildren := ihc (n := k) (by omega) e
    obtain ⟨ws, g', hw, hg, -⟩ := fc.copyAll (n := k) (by omega) e
    simp only [Heap.copyAll, Heap.copyTo_ref k he]
    rw [hw] at hchildren ⊢
    exact .cons (.ref he hchildren) (ih (n := k + 1) (by omega) ((e.trans hg).trans (.alloc g' _)))

theorem Forest.copies {h : Heap} {v : Value} {t : Tree} {F : List Nat} (f : Forest h [v] [t] F) :
    Heap.Copies h v (h.clone v).1 (h.clone v).2 := by
  cases f.copiesAll f.heights_le_size (.refl h) with
  | cons hc hnil =>
    cases hnil
    exact hc

namespace Heap
variable {h : Heap} {v : Value}

/-- Nothing that is stored into lists and records which one value leads to and another does not is seen in the other: it
prints the same and is equal to the same values, of all that lead to none of those lists and records. -/
def Independent (h : Heap) (x y : Value) : Prop :=
  ∀ (P : Nat → Prop) (g : Heap), (∀ a, P a → h.Leads x a ∧ ¬ h.Leads y a) → h.Stores P g →
    g.format y = h.format y ∧ ∀ u, (∀ a, h.Leads u a → (h.cell? a).isSome = true ∧ ¬ P a) →
      g.equal y u = h.equal y u ∧ g.equal u y = h.equal u y

structure DeepCopy (h : Heap) (v w : Value) (h' : Heap) : Prop where
  unchanged : h.Extends h'
  equal : h'.equal w v = true ∧ h'.equal v w = true
  format : h'.format w = h.format v
  /-- The lists and records of the copy were not there before, and stand in one place each. -/
  new : ∀ a, h'.Leads w a → h.cells.size ≤ a ∧ ∃! place, h'.Refers [w] place a
  apart : ∀ a, h'.Leads w a → ¬ h'.Leads v a
  independent : h'.Independent v w ∧ h'.Independent w v

theorem independent_of_reads {x y : Value} {t : Tree} (hy : h.Reads y t) : h.Independent x y := by
  intro P g hP hs
  obtain ⟨F, f⟩ := hy
  have hk := hs.spares
  have hF (a : Nat) (ha : a ∈ F) : g.cell? a = h.cell? a := by
    obtain ⟨y', hmem, hl⟩ := f.leads_of_mem ha
    obtain rfl : y' = y := List.mem_singleton.mp hmem
    exact hk.cell_eq a (f.lt_size a ha) fun hp => (hP a hp).2 hl
  refine ⟨(f.of_cells hF).format_eq.trans f.format_eq.symm, fun u hu => ?_⟩
  have hU (a : Nat) (hl : h.Leads u a) : g.cell? a = h.cell? a := by
    obtain ⟨c, hc⟩ := Option.isSome_iff_exists.mp (hu a hl).1
    exact hk.cell_eq a (lt_of_cell? hc) (hu a hl).2
  have heq : g.equal y u = h.equal y u := f.equal_congr hF hk.size_le hU
  exact ⟨heq, by rw [equal_comm g, heq, equal_comm h]⟩

/-- Copying ends with one outcome, and that is a deep copy. -/
theorem clone_deepCopy (hv : h.Copyable v) :
    ∃ w h', h.clone v = (w, h') ∧ (∀ w' g, Copies h v w' g ↔ w' = w ∧ g = h') ∧ h.DeepCopy v w h' := by
  obtain ⟨t, ⟨F, f⟩, ht⟩ := hv.reads
  have hself := Tree.equal_self ht
  obtain ⟨w, h', hc, hext, G, g, hn, hG⟩ := f.clone
  have hcopies : Copies h v w h' := by
    have := f.copies
    rwa [hc] at this
  have f' : Forest h' [v] [t] F := f.extend hext
  have hnew (a : Nat) (hl : h'.Leads w a) : a ∈ G := g.mem_of_leads List.mem_cons_self hl
  refine ⟨w, h', hc, fun w' g' => ⟨fun hc' => hc'.unique hcopies, ?_⟩, ?_⟩
  · rintro ⟨rfl, rfl⟩
    exact hcopies
  · exact {
      unchanged := hext
      equal := ⟨by rw [g.equal_eq f', hself], by rw [f'.equal_eq g, hself]⟩
      format := by rw [g.format_eq, f.format_eq]
      new := fun a hl => ⟨hG a (hnew a hl), g.exists_unique_place hn List.mem_cons_self hl⟩
      apart := fun a hl hl' =>
        Nat.not_le_of_lt (f.lt_size a (f'.mem_of_leads List.mem_cons_self hl')) (hG a (hnew a hl))
      independent := ⟨independent_of_reads ⟨G, g⟩, independent_of_reads ⟨F, f'⟩⟩ }

/-- A list that holds a record twice. -/
private def pairOfOne : Heap := ⟨#[.record [("x", .int 1)], .list [.ref 0, .ref 0]], 0⟩

private theorem pairOfOne_cell? {a : Nat} {c : Cell} (hc : pairOfOne.cell? a = some c) :
    (a = 0 ∧ c = .record [("x", .int 1)]) ∨ (a = 1 ∧ c = .list [.ref 0, .ref 0]) := by
  match a, hc with
  | 0, rfl => exact .inl ⟨rfl, rfl⟩
  | 1, rfl => exact .inr ⟨rfl, rfl⟩

private theorem pairOfOne_within {a b : Nat} (hw : pairOfOne.Within a b) : b = 0 ∧ a = 1 := by
  obtain ⟨i, c, hc, hi⟩ := hw
  have hb := List.mem_of_getElem? hi
  rcases pairOfOne_cell? hc with ⟨rfl, rfl⟩ | ⟨rfl, rfl⟩
  · simp [Cell.children] at hb
  · simpa [Cell.children] using hb

/-- The copy of a list that holds a record twice holds two records. -/
theorem pairOfOne_deepCopy : pairOfOne.Copyable (.ref 1) ∧ pairOfOne.Refers [.ref 1] (.child 1 0) 0 ∧
    pairOfOne.Refers [.ref 1] (.child 1 1) 0 ∧ ∃ w h', pairOfOne.clone (.ref 1) = (w, h') ∧
      pairOfOne.DeepCopy (.ref 1) w h' ∧ h'.format w = "[\x7bx:1\x7d, \x7bx:1\x7d]" := by
  have hcopyable : pairOfOne.Copyable (.ref 1) := by
    refine ⟨fun a hl => ?_, fun a _ hcycle => ?_, fun w hw => ?_⟩
    · cases hl with
      | here => rfl
      | child _ hp =>
        obtain ⟨rfl, -⟩ := pairOfOne_within ⟨_, hp⟩
        rfl
    · obtain ⟨b, hab, -⟩ := Relation.TransGen.head'_iff.mp hcycle
      obtain ⟨c, -, hca⟩ := Relation.TransGen.tail'_iff.mp hcycle
      cases (pairOfOne_within hab).2.symm.trans (pairOfOne_within hca).1
    · cases hw with
      | self => simp
      | child _ hc hw =>
        rcases pairOfOne_cell? hc with ⟨-, rfl⟩ | ⟨-, rfl⟩
        · obtain rfl : w = .int 1 := by simpa [Cell.children] using hw
          simp
        · obtain rfl : w = .ref 0 := by simpa [Cell.children] using hw
          simp
  obtain ⟨w, h', hc, -, hdeep⟩ := clone_deepCopy hcopyable
  have hfirst : pairOfOne.Refers [.ref 1] (.child 1 0) 0 := .child List.mem_cons_self .here ⟨_, rfl, rfl⟩
  have hsecond : pairOfOne.Refers [.ref 1] (.child 1 1) 0 := .child List.mem_cons_self .here ⟨_, rfl, rfl⟩
  refine ⟨hcopyable, hfirst, hsecond, w, h', hc, hdeep, ?_⟩
  rw [hdeep.format]
  rfl

end Heap
end WhileStack
