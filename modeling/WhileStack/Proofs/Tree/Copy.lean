import WhileStack.Proofs.Tree.Read

/-! Copying. A copy reads as the same tree and stands in cells that were not there before, each met once. -/
namespace WhileStack
open WhileStack.Tree (heights)

namespace Cell

/-- The same list or record with other values in it. -/
def refill : Cell → List Value → Cell
  | list _, vs => .list vs
  | record fs, vs => .record ((fs.map Prod.fst).zip vs)

theorem shape_refill {c : Cell} {vs : List Value} (hl : vs.length = c.children.length) : (c.refill vs).shape = c.shape := by
  cases c with
  | list => rfl
  | record fs => rw [refill, shape, shape, List.map_fst_zip (by simpa [children] using Nat.le_of_eq hl.symm)]

theorem children_refill {c : Cell} {vs : List Value} (hl : vs.length = c.children.length) :
    (c.refill vs).children = vs := by
  cases c with
  | list => rfl
  | record fs => rw [refill, children, List.map_snd_zip (by simpa [children] using Nat.le_of_eq hl)]

end Cell

theorem Heap.copyTo_leaf (n : Nat) (h : Heap) {v : Value} (hv : v.isRef = false) : Heap.copyTo n h v = (v, h) := by
  cases v <;> simp_all [Heap.copyTo, Value.isRef]

theorem Heap.copyTo_ref (n : Nat) {h : Heap} {a : Nat} {c : Cell} (e : h.cell? a = some c) :
    Heap.copyTo (n + 1) h (.ref a) =
      (Heap.copyAll (Heap.copyTo n) h c.children).2.alloc (c.refill (Heap.copyAll (Heap.copyTo n) h c.children).1) := by
  cases c <;> simp only [Heap.copyTo, e, Cell.children, Cell.refill]

/-- The values read as the trees, share no cell, and use none in front of `b`. -/
def Fresh (b : Nat) (h : Heap) (vs : List Value) (ts : List Tree) : Prop :=
  ∃ F, Forest h vs ts F ∧ F.Nodup ∧ ∀ a ∈ F, b ≤ a

namespace Fresh
variable {b k : Nat} {h h' : Heap} {v : Value} {t : Tree} {vs : List Value} {ts : List Tree}

theorem nil (b : Nat) (h : Heap) : Fresh b h [] [] := ⟨[], .nil, by simp, by simp⟩

theorem leaf (b : Nat) (h : Heap) (hv : v.isRef = false) : Fresh b h [v] [.leaf v] :=
  ⟨[], .leaf hv .nil, by simp, by simp⟩

theorem length_eq (f : Fresh b h vs ts) : vs.length = ts.length := by
  obtain ⟨F, f, -⟩ := f
  exact f.length_eq

theorem mono (f : Fresh k h vs ts) (hb : b ≤ k) : Fresh b h vs ts := by
  obtain ⟨F, hf, hn, hk⟩ := f
  exact ⟨F, hf, hn, fun a ha => Nat.le_trans hb (hk a ha)⟩

theorem extend (f : Fresh b h vs ts) (e : h.Extends h') : Fresh b h' vs ts := by
  obtain ⟨F, hf, hn, hb⟩ := f
  exact ⟨F, hf.extend e, hn, hb⟩

/-- What is made later shares nothing with what was there. -/
theorem cons (f : Fresh b h [v] [t]) (e : h.Extends h') (hb : b ≤ h.cells.size) (g : Fresh h.cells.size h' vs ts) :
    Fresh b h' (v :: vs) (t :: ts) := by
  obtain ⟨F, hf, hn, hF⟩ := f
  obtain ⟨G, hg, hm, hG⟩ := g
  refine ⟨F ++ G, (hf.extend e).cons hg, ?_, ?_⟩
  · refine hn.append hm fun a ha ha' => ?_
    have := hf.lt_size a ha
    have := hG a ha'
    omega
  · intro a ha
    rcases List.mem_append.mp ha with ha | ha
    · exact hF a ha
    · exact Nat.le_trans hb (hG a ha)

theorem alloc (f : Fresh b h vs ts) (hb : b ≤ h.cells.size) {c : Cell} (hc : c.children = vs) :
    Fresh b (h.alloc c).2 [(h.alloc c).1] [.node c.shape ts] := by
  obtain ⟨F, hf, hn, hF⟩ := f
  subst hc
  refine ⟨h.cells.size :: (F ++ []), .node (h.cell?_alloc c) (hf.extend (.alloc h c)) .nil, ?_, ?_⟩
  · rw [List.append_nil]
    exact List.nodup_cons.mpr ⟨fun ha => Nat.lt_irrefl _ (hf.lt_size _ ha), hn⟩
  · intro a ha
    rcases List.mem_cons.mp ha with rfl | ha
    · exact hb
    · exact hF a (by simpa using ha)

end Fresh

namespace Tree

theorem heights_append (ts us : List Tree) : heights (ts ++ us) = max (heights ts) (heights us) := by
  induction ts with
  | nil => simp [heights]
  | cons t ts ih => simp only [List.cons_append, heights, ih]; omega

end Tree

namespace Forest
variable {h g : Heap} {v w : Value} {t u : Tree} {vs ws : List Value} {ts us : List Tree} {F G : List Nat}

/-- Copies may be made in a heap that has grown since. -/
theorem copyAll (f : Forest h vs ts F) {n : Nat} (hn : heights ts ≤ n) (e : h.Extends g) :
    ∃ ws g', Heap.copyAll (Heap.copyTo n) g vs = (ws, g') ∧ g.Extends g' ∧ Fresh g.cells.size g' ws ts := by
  induction f generalizing n g with
  | nil => exact ⟨[], g, rfl, .refl g, .nil _ _⟩
  | @leaf v vs ts F hv _ ih =>
    simp only [heights, Tree.height, Nat.zero_max] at hn
    obtain ⟨ws, g', hw, hg, hf⟩ := ih hn e
    refine ⟨v :: ws, g', ?_, hg, (Fresh.leaf _ g hv).cons hg (Nat.le_refl _) hf⟩
    simp only [Heap.copyAll, Heap.copyTo_leaf n g hv, hw]
  | @node a c us vs ts F G ec fc _ ihc ih =>
    simp only [heights, Tree.height] at hn
    obtain ⟨k, rfl⟩ : ∃ k, n = k + 1 := ⟨n - 1, by omega⟩
    obtain ⟨us', g₁, hw, hg, hf⟩ := ihc (n := k) (by omega) e
    have hl : us'.length = c.children.length := by
      obtain ⟨_, hf, _⟩ := hf
      rw [hf.length_eq, fc.length_eq]
    have he : g.cell? a = some c := (e.cell_eq a (Heap.lt_of_cell? ec)).trans ec
    have hd : Heap.copyTo (k + 1) g (.ref a) = g₁.alloc (c.refill us') := by rw [Heap.copyTo_ref k he, hw]
    obtain ⟨ws, g', hw', hg', hf'⟩ := ih (n := k + 1) (by omega) ((e.trans hg).trans (.alloc g₁ (c.refill us')))
    have ha := hf.alloc hg.size_le (Cell.children_refill hl)
    rw [Cell.shape_refill hl] at ha
    refine ⟨(g₁.alloc (c.refill us')).1 :: ws, g', ?_, (hg.trans (.alloc g₁ _)).trans hg', ?_⟩
    · simp only [Heap.copyAll, hd, hw']
    · exact ha.cons hg' (Nat.le_trans hg.size_le (Heap.Extends.alloc g₁ _).size_le) hf'

theorem clone (f : Forest h [v] [t] F) :
    ∃ w h', h.clone v = (w, h') ∧ h.Extends h' ∧ Fresh h.cells.size h' [w] [t] := by
  obtain ⟨ws, h', hw, he, hf⟩ := f.copyAll f.heights_le_size (.refl h)
  simp only [Heap.copyAll] at hw
  obtain ⟨rfl, rfl⟩ := Prod.mk.inj hw
  exact ⟨_, _, rfl, he, hf⟩

/-- Looking a name up on both sides meets the same field. -/
theorem lookup {ns : List String} (f : Forest h vs ts F) (hl : ns.length = vs.length) (n : String) :
    (((ns.zip vs).lookup n = none ∧ (ns.zip ts).lookup n = none)) ∨
    ∃ v t G, (ns.zip vs).lookup n = some v ∧ (ns.zip ts).lookup n = some t ∧ Forest h [v] [t] G ∧ G.Sublist F ∧
      t.height ≤ heights ts := by
  induction vs generalizing ns ts F with
  | nil =>
    cases f
    exact .inl ⟨by simp, by simp⟩
  | cons v vs ih =>
    obtain ⟨t, us, G, K, rfl, rfl, fv, f⟩ := f.uncons
    cases ns with
    | nil => simp at hl
    | cons m ns =>
      simp only [List.zip_cons_cons, List.lookup_cons]
      by_cases hm : n = m
      · subst hm
        exact .inr ⟨v, t, G, by simp, by simp, fv, List.sublist_append_left G K, Nat.le_max_left _ _⟩
      · have hb : (n == m) = false := by simp [hm]
        simp only [hb]
        rcases ih f (by simpa using hl) with hnone | ⟨w, u, L, hw, hu, fw, hs, hh⟩
        · exact .inl hnone
        · exact .inr ⟨w, u, L, hw, hu, fw, hs.trans (List.sublist_append_right G K), by simp only [heights]; omega⟩

theorem selectFields {fs : List (String × Value)} (f : Forest h (fs.map Prod.snd) ts F) (names : List String) :
    (∃ e, Heap.selectFields fs names = .error e ∧ Tree.select ((fs.map Prod.fst).zip ts) names = .error e) ∨
    ∃ ws us G, Heap.selectFields fs names = .ok ws ∧ Tree.select ((fs.map Prod.fst).zip ts) names = .ok us ∧
      Forest h ws us G ∧ us.length = names.length ∧ heights us ≤ heights ts := by
  induction names with
  | nil => exact .inr ⟨[], [], [], rfl, rfl, .nil, rfl, by simp [heights]⟩
  | cons n names ih =>
    have hz : (fs.map Prod.fst).zip (fs.map Prod.snd) = fs := (Cell.record_eq_zip fs).symm
    rcases f.lookup (show (fs.map Prod.fst).length = (fs.map Prod.snd).length by simp) n with
      ⟨hv, ht⟩ | ⟨v, t, G, hv, ht, fv, -, hh⟩
    · rw [hz] at hv
      exact .inl ⟨.noField n, by simp [Heap.selectFields, hv], by simp [Tree.select, ht]⟩
    · rw [hz] at hv
      rcases ih with ⟨e, h₁, h₂⟩ | ⟨ws, us, K, h₁, h₂, fw, hl, hu⟩
      · exact .inl ⟨e, by simp [Heap.selectFields, hv, h₁, bind, Except.bind],
          by simp [Tree.select, ht, h₂, bind, Except.bind]⟩
      · refine .inr ⟨v :: ws, t :: us, G ++ K, by simp [Heap.selectFields, hv, h₁, bind, Except.bind],
          by simp [Tree.select, ht, h₂, bind, Except.bind], fv.cons fw, by simp [hl], ?_⟩
        simp only [heights]
        omega

/-- Projection fails alike or gives a new record that reads as the projected tree. -/
theorem project {fs : List (String × Value)} (f : Forest h (fs.map Prod.snd) ts F) (names : List String) :
    (∃ e, h.project fs names = .error e ∧ Tree.project ((fs.map Prod.fst).zip ts) names = .error e) ∨
    ∃ w h' u, h.project fs names = .ok (w, h') ∧ Tree.project ((fs.map Prod.fst).zip ts) names = .ok u ∧
      h.Extends h' ∧ Fresh h.cells.size h' [w] [u] := by
  rcases f.selectFields names with ⟨e, h₁, h₂⟩ | ⟨ws, us, K, h₁, h₂, fw, hl, hu⟩
  · exact .inl ⟨e, by simp [Heap.project, h₁, bind, Except.bind], by simp [Tree.project, h₂, bind, Except.bind]⟩
  · obtain ⟨ws', h', hc, he, hf⟩ := fw.copyAll (Nat.le_trans hu f.heights_le_size) (.refl h)
    have hl' : ws'.length = names.length := by
      obtain ⟨_, hf, _⟩ := hf
      rw [hf.length_eq, hl]
    have ha := hf.alloc he.size_le (c := .record (names.zip ws')) (by simp [Cell.children, List.map_snd_zip, hl'])
    rw [Cell.shape, List.map_fst_zip (by omega)] at ha
    exact .inr ⟨_, _, _, by simp only [Heap.project, h₁, bind, Except.bind, Heap.cloneAll, hc],
      by simp only [Tree.project, h₂, bind, Except.bind], he.trans (.alloc _ _), ha⟩

/-- Appending fails alike or gives a value that reads as the appended tree. -/
theorem append_eq (f : Forest h [v] [t] F) (g : Forest h [w] [u] G) :
    (∃ e, h.append v w = .error e ∧ t.append u = .error e) ∨
    ∃ x h' s, h.append v w = .ok (x, h') ∧ t.append u = .ok s ∧ h.Extends h' ∧ Fresh h.cells.size h' [x] [s] := by
  have htag := f.tag_eq
  rcases f.list?_cases with ⟨hv, ht⟩ | ⟨a, es, ts, F', hv, rfl, rfl, rfl, -, fe⟩
  · by_cases hs : ∃ s, v = .string s
    · obtain ⟨s, rfl⟩ := hs
      cases f
      by_cases hs' : ∃ s', w = .string s'
      · obtain ⟨s', rfl⟩ := hs'
        cases g
        exact .inr ⟨_, h, _, rfl, rfl, .refl h, .leaf _ h rfl⟩
      · refine .inl ⟨.appendToString, ?_, ?_⟩
        · cases w <;> simp_all [Heap.append]
        · cases g with
          | leaf => cases w <;> simp_all [Tree.append]
          | node => rfl
    · refine .inl ⟨.appendTo t.tag, ?_, ?_⟩
      · cases v <;> simp_all [Heap.append]
      · cases f with
        | leaf => cases v <;> simp_all [Tree.append]
        | node => simp [Tree.append, ht]
  · rcases g.list?_cases with ⟨hw, hu⟩ | ⟨b, es', us, G', hw, rfl, rfl, rfl, -, ge⟩
    · exact .inl ⟨.appendToList, by simp [Heap.append, hv, hw], by simp [Tree.append, hu]⟩
    · have hh : heights (ts ++ us) ≤ h.cells.size := by
        rw [Tree.heights_append]
        exact Nat.max_le.mpr ⟨fe.heights_le_size, ge.heights_le_size⟩
      obtain ⟨ws, h', hc, he, hf⟩ := (fe.append ge).copyAll hh (.refl h)
      exact .inr ⟨_, _, .node .list (ts ++ us), by simp only [Heap.append, hv, hw, Heap.cloneAll, hc], rfl,
        he.trans (.alloc _ _), hf.alloc he.size_le (c := .list ws) rfl⟩

end Forest
end WhileStack
