import WhileStack.Proofs.Tree.Path
import Mathlib.Logic.Relation

/-! The graph of lists and records. Where values read as trees that share no cell, each cell that they lead to is
referred to from one place, no cell leads back to itself, and no two values lead to the same cell. -/
namespace WhileStack

namespace Heap

/-- The element or field at a position of one cell refers to another cell. -/
def Points (h : Heap) (a i b : Nat) : Prop := ∃ c, h.cell? a = some c ∧ c.children[i]? = some (.ref b)

/-- The cells that a value leads to. -/
inductive Leads (h : Heap) : Value → Nat → Prop where
  | here {a} : Leads h (.ref a) a
  | child {v a i b} : Leads h v a → h.Points a i b → Leads h v b

/-- One cell holds a reference to another. -/
def Within (h : Heap) (a b : Nat) : Prop := ∃ i, h.Points a i b

/-- What a value reads as. -/
def Reads (h : Heap) (v : Value) (t : Tree) : Prop := ∃ F, Forest h [v] [t] F

theorem Reads.unique {h : Heap} {v : Value} {t u : Tree} (ht : h.Reads v t) (hu : h.Reads v u) : t = u := by
  obtain ⟨F, f⟩ := ht
  obtain ⟨G, g⟩ := hu
  simpa using (f.unique g).1

theorem Reads.extend {h h' : Heap} {v : Value} {t : Tree} (ht : h.Reads v t) (e : h.Extends h') : h'.Reads v t := by
  obtain ⟨F, f⟩ := ht
  exact ⟨F, f.extend e⟩

/-- Values that read as trees each read as trees together. -/
theorem reads_all {h : Heap} {P : Tree → Prop} {vs : List Value} (hall : ∀ v ∈ vs, ∃ t, h.Reads v t ∧ P t) :
    ∃ ts F, Forest h vs ts F ∧ ∀ t ∈ ts, P t := by
  induction vs with
  | nil => exact ⟨[], [], .nil, by simp⟩
  | cons v vs ih =>
    obtain ⟨t, ⟨F, f⟩, ht⟩ := hall v List.mem_cons_self
    obtain ⟨ts, G, g, hts⟩ := ih fun w hw => hall w (List.mem_cons_of_mem v hw)
    exact ⟨t :: ts, F ++ G, f.cons g, List.forall_mem_cons.mpr ⟨ht, hts⟩⟩

end Heap

/-- Where a reference can stand: in one of some variables, or at a position of a cell. -/
inductive Place where
  | root (i : Nat)
  | child (a i : Nat)

/-- The references to a cell from variables and from what they lead to. -/
inductive Heap.Refers (h : Heap) (vs : List Value) : Place → Nat → Prop where
  | root {i b} : vs[i]? = some (.ref b) → Refers h vs (.root i) b
  | child {v a i b} : v ∈ vs → h.Leads v a → h.Points a i b → Refers h vs (.child a i) b

namespace Forest
variable {h : Heap} {v w : Value} {vs : List Value} {ts : List Tree} {F : List Nat} {a b i j : Nat}

/-- A cell that is visited reads as a tree itself, through cells that are visited. -/
theorem inside (f : Forest h vs ts F) (ha : a ∈ F) :
    ∃ c us G, h.cell? a = some c ∧ Forest h c.children us G ∧ (a :: G).Sublist F := by
  induction f with
  | nil => simp at ha
  | leaf _ _ ih => exact ih ha
  | @node d c us _ _ G K e fc _ ihc ih =>
    rcases List.mem_cons.mp ha with rfl | ha
    · exact ⟨c, us, G, e, fc, (List.sublist_append_left G K).cons_cons a⟩
    · rcases List.mem_append.mp ha with ha | ha
      · obtain ⟨c', us', G', hc, g, hs⟩ := ihc ha
        exact ⟨c', us', G', hc, g, (hs.trans (List.sublist_append_left G K)).cons d⟩
      · obtain ⟨c', us', G', hc, g, hs⟩ := ih ha
        exact ⟨c', us', G', hc, g, (hs.trans (List.sublist_append_right G K)).cons d⟩

theorem root_mem (f : Forest h vs ts F) (hi : vs[i]? = some (.ref a)) : a ∈ F := by
  obtain ⟨t, A, G, B, -, rfl, g, -⟩ := f.focus hi
  cases g with
  | leaf hv => simp [Value.isRef] at hv
  | node => simp

theorem mem_of_points (f : Forest h vs ts F) (ha : a ∈ F) (hp : h.Points a i b) : b ∈ F := by
  obtain ⟨c, us, G, hc, g, hs⟩ := f.inside ha
  obtain ⟨c', hc', hi⟩ := hp
  cases hc.symm.trans hc'
  exact hs.mem (List.mem_cons_of_mem a (g.root_mem hi))

theorem mem_of_leads (f : Forest h vs ts F) (hv : v ∈ vs) (hl : h.Leads v a) : a ∈ F := by
  induction hl with
  | here =>
    obtain ⟨i, hi⟩ := List.mem_iff_getElem?.mp hv
    exact f.root_mem hi
  | child _ hp ih => exact f.mem_of_points (ih hv) hp

theorem leads_of_child {c : Cell} (e : h.cell? a = some c) (hv : v ∈ c.children) (hl : h.Leads v b) :
    h.Leads (.ref a) b := by
  induction hl with
  | here =>
    obtain ⟨i, hi⟩ := List.mem_iff_getElem?.mp hv
    exact .child .here ⟨c, e, hi⟩
  | child _ hp ih => exact .child (ih hv) hp

theorem leads_of_mem (f : Forest h vs ts F) (ha : a ∈ F) : ∃ v ∈ vs, h.Leads v a := by
  induction f with
  | nil => simp at ha
  | leaf _ _ ih =>
    obtain ⟨v, hv, hl⟩ := ih ha
    exact ⟨v, by simp [hv], hl⟩
  | node e _ _ ihc ih =>
    rcases List.mem_cons.mp ha with rfl | ha
    · exact ⟨_, by simp, .here⟩
    · rcases List.mem_append.mp ha with ha | ha
      · obtain ⟨v, hv, hl⟩ := ihc ha
        exact ⟨_, by simp, leads_of_child e hv hl⟩
      · obtain ⟨v, hv, hl⟩ := ih ha
        exact ⟨v, by simp [hv], hl⟩

/-- The references that are met, in the order of the cells they refer to. `name` gives the places of the values. -/
private theorem places (f : Forest h vs ts F) (name : Nat → Place) :
    ∃ P : List (Place × Nat), P.map Prod.snd = F ∧ (∀ i b, vs[i]? = some (.ref b) → (name i, b) ∈ P) ∧
      ∀ a i b, a ∈ F → h.Points a i b → (.child a i, b) ∈ P := by
  induction f generalizing name with
  | nil => exact ⟨[], rfl, by simp, by simp⟩
  | leaf hv _ ih =>
    obtain ⟨P, hP, hroot, hchild⟩ := ih fun i => name (i + 1)
    refine ⟨P, hP, fun i b hi => ?_, hchild⟩
    cases i with
    | zero =>
      obtain rfl : _ = Value.ref b := by simpa using hi
      simp [Value.isRef] at hv
    | succ i => exact hroot i b (by simpa using hi)
  | @node d c _ _ _ _ _ e _ _ ihc ih =>
    obtain ⟨P, hP, hroot, hchild⟩ := ihc (.child d)
    obtain ⟨Q, hQ, hroot', hchild'⟩ := ih fun i => name (i + 1)
    refine ⟨(name 0, d) :: (P ++ Q), by simp [hP, hQ], fun i b hi => ?_, fun a i b ha hp => ?_⟩
    · cases i with
      | zero =>
        obtain rfl : d = b := by simpa using hi
        simp
      | succ i => simp [hroot' i b (by simpa using hi)]
    · rcases List.mem_cons.mp ha with rfl | ha
      · obtain ⟨c', hc', hi⟩ := hp
        cases e.symm.trans hc'
        simp [hroot i b hi]
      · rcases List.mem_append.mp ha with ha | ha
        · simp [hchild a i b ha hp]
        · simp [hchild' a i b ha hp]

/-- Each cell is referred to from one place only. -/
theorem exists_unique_place (f : Forest h vs ts F) (hn : F.Nodup) (hv : v ∈ vs) (hl : h.Leads v b) :
    ∃! place, h.Refers vs place b := by
  obtain ⟨P, hP, hroot, hchild⟩ := f.places .root
  have hmem : ∀ place, h.Refers vs place b → (place, b) ∈ P := by
    intro place hr
    cases hr with
    | root hi => exact hroot _ b hi
    | child hv hl hp => exact hchild _ _ b (f.mem_of_leads hv hl) hp
  obtain ⟨place, hr⟩ : ∃ place, h.Refers vs place b := by
    cases hl with
    | here =>
      obtain ⟨i, hi⟩ := List.mem_iff_getElem?.mp hv
      exact ⟨_, .root hi⟩
    | child hl hp => exact ⟨_, .child hv hl hp⟩
  refine ⟨place, hr, fun place' hr' => ?_⟩
  rw [← hP] at hn
  exact congrArg Prod.fst (List.inj_on_of_nodup_map hn (hmem _ hr') (hmem _ hr) rfl)

/-- No cell leads back to itself. -/
theorem acyclic (f : Forest h vs ts F) (hn : F.Nodup) (hv : v ∈ vs) (hl : h.Leads v a) :
    ¬ Relation.TransGen h.Within a a := by
  obtain ⟨c, us, G, hc, g, hs⟩ := f.inside (f.mem_of_leads hv hl)
  have hna : a ∉ G := (List.nodup_cons.mp (hn.sublist hs)).1
  have hmem : ∀ b, Relation.TransGen h.Within a b → b ∈ G := by
    intro b ht
    induction ht with
    | single hw =>
      obtain ⟨i, c', hc', hi⟩ := hw
      cases hc.symm.trans hc'
      exact g.root_mem hi
    | tail _ hw ih =>
      obtain ⟨i, hp⟩ := hw
      exact g.mem_of_points ih hp
  exact fun ht => hna (hmem a ht)

/-- Two of the values lead to no common cell. -/
theorem disjoint (f : Forest h vs ts F) (hn : F.Nodup) (hij : i ≠ j) (hv : vs[i]? = some v) (hw : vs[j]? = some w)
    (hl : h.Leads v a) : ¬ h.Leads w a := by
  intro hl'
  obtain ⟨t, A, G, B, -, rfl, g, hput⟩ := f.focus hv
  have haG : a ∈ G := g.mem_of_leads (by simp) hl
  -- The other value still stands there when this one is taken away.
  have hrest := hput (fun _ _ => rfl) (.leaf (h := h) (v := .null) rfl .nil)
  have hw' : w ∈ vs.set i .null := List.mem_of_getElem? (i := j) (by rw [List.getElem?_set_ne hij, hw])
  have haAB := hrest.mem_of_leads hw' hl'
  simp only [List.append_nil, List.nodup_append, List.mem_append] at hn haAB
  grind

/-- A cell that one value leads to is written; the others read as before. -/
theorem reads_write (f : Forest h vs ts F) (hn : F.Nodup) (hij : i ≠ j) (hv : vs[i]? = some v) (hw : vs[j]? = some w)
    (hl : h.Leads v a) (c : Cell) : ∃ t, h.Reads w t ∧ (h.write a c).Reads w t := by
  obtain ⟨t, A, G, B, -, -, g, -⟩ := f.focus hw
  refine ⟨t, ⟨G, g⟩, G, g.of_cells fun b hb => h.cell?_write_ne (fun hba => ?_) c⟩
  obtain ⟨w', hw', hl'⟩ := g.leads_of_mem hb
  obtain rfl : w' = w := by simpa using hw'
  exact f.disjoint hn hij hv hw hl (hba ▸ hl')

end Forest
end WhileStack
