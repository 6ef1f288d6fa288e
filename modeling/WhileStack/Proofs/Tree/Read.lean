import WhileStack.Proofs.Tree.Forest

/-! What the heap says of a value is what its tree says: text, equality, kind, elements and fields. -/
namespace WhileStack
open WhileStack.Tree (heights)

namespace Cell

theorem record_eq_zip (fs : List (String × Value)) :
    fs = (fs.map Prod.fst).zip (record fs).children := by
  induction fs with
  | nil => rfl
  | cons f fs ih => simp only [children, List.map_cons, List.zip_cons_cons] at ih ⊢; rw [← ih]

theorem map_fst_modify (fs : List (String × Value)) (n : Nat) (v : Value) :
    (fs.modify n fun f => (f.1, v)).map Prod.fst = fs.map Prod.fst := by
  induction fs generalizing n with
  | nil => cases n <;> simp
  | cons f fs ih => cases n <;> simp [ih]

theorem map_snd_modify (fs : List (String × Value)) (n : Nat) (v : Value) :
    (fs.modify n fun f => (f.1, v)).map Prod.snd = (fs.map Prod.snd).set n v := by
  induction fs generalizing n with
  | nil => cases n <;> simp
  | cons f fs ih => cases n <;> simp [ih]

end Cell

namespace Heap

theorem formatTo_leaf (h : Heap) (n : Nat) {v : Value} (hv : v.isRef = false) :
    h.formatTo n v = Heap.empty.format v := by
  cases v <;> simp_all [Value.isRef, Heap.format, Heap.formatTo]

theorem equalTo_leaf (h : Heap) (n : Nat) {v w : Value} (hv : v.isRef = false) (hw : w.isRef = false) :
    h.equalTo n v w = Heap.empty.equal v w := by
  cases v <;> cases w <;> simp_all [Value.isRef, Heap.equal, Heap.equalTo]

theorem equalTo_leaf_ref (h : Heap) (n : Nat) {v : Value} (hv : v.isRef = false) (a : Nat) :
    h.equalTo n v (.ref a) = false ∧ h.equalTo n (.ref a) v = false := by
  cases v <;> simp_all [Value.isRef, Heap.equalTo]

theorem tag_leaf (h : Heap) {v : Value} (hv : v.isRef = false) : h.tag v = Heap.empty.tag v := by
  cases v <;> first | rfl | simp [Value.isRef] at hv

theorem list?_leaf (h : Heap) {v : Value} (hv : v.isRef = false) : h.list? v = none := by
  cases v <;> first | rfl | simp [Value.isRef] at hv

theorem record?_leaf (h : Heap) {v : Value} (hv : v.isRef = false) : h.record? v = none := by
  cases v <;> first | rfl | simp [Value.isRef] at hv

end Heap

namespace Heap

private theorem all_records (h : Heap) (n : Nat) (fs gs : List (String × Value)) :
    (fs.length == gs.length && (fs.zip gs).all fun p => p.1.1 == p.2.1 && h.equalTo n p.1.2 p.2.2)
      = (fs.map Prod.fst == gs.map Prod.fst
        && ((fs.map Prod.snd).length == (gs.map Prod.snd).length
          && ((fs.map Prod.snd).zip (gs.map Prod.snd)).all fun p => h.equalTo n p.1 p.2)) := by
  induction fs generalizing gs with
  | nil => cases gs <;> simp
  | cons f fs ih =>
    cases gs with
    | nil => simp
    | cons g gs =>
      have := ih gs
      simp only [List.length_map] at this
      by_cases hf : f.1 = g.1
      · simp only [List.length_cons, List.zip_cons_cons, List.all_cons, List.map_cons, List.length_map, hf]
        cases hq : h.equalTo n f.2 g.2 <;> simp_all
      · have hb : (f.1 == g.1) = false := by simp [hf]
        simp [hb]

/-- Lists and records are equal just if they are of one shape and what they hold is equal in pairs. -/
theorem equalTo_ref {h : Heap} (n : Nat) {a b : Nat} {c d : Cell} (ha : h.cell? a = some c) (hb : h.cell? b = some d) :
    h.equalTo (n + 1) (.ref a) (.ref b) = (c.shape == d.shape && (c.children.length == d.children.length
      && (c.children.zip d.children).all fun p => h.equalTo n p.1 p.2)) := by
  cases c <;> cases d <;> simp only [equalTo, ha, hb, Cell.shape, Cell.children]
  · simp
  · simp
  · simp
  · rw [all_records]
    congr 1
    simp [Shape.record.injEq, beq_eq_decide]

end Heap

namespace Forest
variable {h : Heap} {v w : Value} {t u : Tree} {vs ws : List Value} {ts us : List Tree} {F G : List Nat}

theorem formats_eq (f : Forest h vs ts F) {n : Nat} (hn : heights ts ≤ n) :
    vs.map (h.formatTo n) = Tree.formats ts := by
  induction f generalizing n with
  | nil => rfl
  | leaf hv _ ih =>
    simp only [heights, Tree.height, Nat.zero_max] at hn
    simp only [List.map_cons, Tree.formats, Tree.format, h.formatTo_leaf n hv, ih hn]
  | @node a c us vs ts F G e _ _ ihc ih =>
    simp only [heights, Tree.height] at hn
    obtain ⟨k, rfl⟩ : ∃ k, n = k + 1 := ⟨n - 1, by omega⟩
    have hc := ihc (n := k) (by omega)
    rw [List.map_cons, Tree.formats, ih (by omega)]
    congr 1
    cases c with
    | list es =>
      simp only [Cell.children] at hc
      simp only [Heap.formatTo, e, Cell.shape, Tree.format, hc]
    | record fs =>
      have hz : fs.map (fun f => f.1 ++ ":" ++ h.formatTo k f.2)
          = ((fs.map Prod.fst).zip (Tree.formats us)).map fun p => p.1 ++ ":" ++ p.2 := by
        rw [← hc, Cell.children, List.map_map, List.zip_map', List.map_map]
        rfl
      simp only [Heap.formatTo, e, Cell.shape, Tree.format, hz]

theorem format_eq (f : Forest h [v] [t] F) : h.format v = t.format := by
  have := f.formats_eq f.heights_le_size
  simpa [Tree.formats, Heap.format] using this

theorem equals_eq (f : Forest h vs ts F) (g : Forest h ws us G) {n : Nat} (hn : heights ts ≤ n) :
    (vs.length == ws.length && (vs.zip ws).all fun p => h.equalTo n p.1 p.2) = Tree.equals ts us := by
  induction f generalizing ws us G n with
  | nil => cases g <;> simp [Tree.equals]
  | leaf hv _ ih =>
    simp only [heights, Tree.height, Nat.zero_max] at hn
    cases g with
    | nil => simp [Tree.equals]
    | leaf hw g =>
      simp only [Tree.equals, Tree.equal, ← ih g hn, List.zip_cons_cons, List.all_cons, List.length_cons,
        h.equalTo_leaf n hv hw]
      cases Heap.empty.equal _ _ <;> simp
    | node => simp [Tree.equals, Tree.equal, (h.equalTo_leaf_ref n hv _).1]
  | @node a c us' vs ts F G e _ _ ihc ih =>
    simp only [heights, Tree.height] at hn
    obtain ⟨k, rfl⟩ : ∃ k, n = k + 1 := ⟨n - 1, by omega⟩
    cases g with
    | nil => simp [Tree.equals]
    | leaf hw => simp [Tree.equals, Tree.equal, (h.equalTo_leaf_ref (k + 1) hw _).2]
    | @node b c' us'' ws us F' G' e' gc g =>
      have hq : h.equalTo (k + 1) (.ref a) (.ref b) = (Tree.node c.shape us').equal (.node c'.shape us'') := by
        rw [Heap.equalTo_ref k e e', ihc gc (n := k) (by omega), Tree.equal]
      simp only [Tree.equals, ← ih g (n := k + 1) (by omega), List.zip_cons_cons, List.all_cons, List.length_cons, hq]
      cases Tree.equal _ _ <;> simp

theorem equal_eq (f : Forest h [v] [t] F) (g : Forest h [w] [u] G) : h.equal v w = t.equal u := by
  have := f.equals_eq g f.heights_le_size
  simpa [Tree.equals, Heap.equal] using this

theorem tag_eq (f : Forest h [v] [t] F) : h.tag v = t.tag := by
  cases f with
  | leaf hv => exact h.tag_leaf hv
  | @node a c us _ _ _ _ e => cases c <;> simp [Heap.tag, e, Cell.shape, Tree.tag]

/-- A value is a list just if its tree is one, and then the elements read as the children. -/
theorem list?_cases (f : Forest h [v] [t] F) :
    (h.list? v = none ∧ t.list? = none) ∨
    ∃ a es ts G, h.list? v = some (a, es) ∧ t = .node .list ts ∧ F = a :: G ∧ v = .ref a ∧
      h.cell? a = some (.list es) ∧ Forest h es ts G := by
  cases f with
  | leaf hv => exact .inl ⟨h.list?_leaf hv, rfl⟩
  | @node a c us _ _ K L e fc f =>
    cases f
    cases c with
    | list es => exact .inr ⟨a, es, us, K, by simp [Heap.list?, e], rfl, by simp, rfl, e, fc⟩
    | record fs => exact .inl ⟨by simp [Heap.list?, e], rfl⟩

/-- A value is a record just if its tree is one, and then the field values read as the children. -/
theorem record?_cases (f : Forest h [v] [t] F) :
    (h.record? v = none ∧ t.record? = none) ∨
    ∃ a fs ts G, h.record? v = some (a, fs) ∧ t = .node (.record (fs.map Prod.fst)) ts ∧ F = a :: G ∧ v = .ref a ∧
      h.cell? a = some (.record fs) ∧ Forest h (fs.map Prod.snd) ts G := by
  cases f with
  | leaf hv => exact .inl ⟨h.record?_leaf hv, rfl⟩
  | @node a c us _ _ K L e fc f =>
    cases f
    cases c with
    | list es => exact .inl ⟨by simp [Heap.record?, e], rfl⟩
    | record fs => exact .inr ⟨a, fs, us, K, by simp [Heap.record?, e], rfl, by simp, rfl, e, fc⟩

theorem length_eq_length (f : Forest h [v] [t] F) : h.length v = t.length := by
  rcases f.list?_cases with ⟨hv, ht⟩ | ⟨a, es, ts, G, hv, rfl, rfl, rfl, e, fe⟩
  · cases f with
    | leaf hr => cases hs : v <;> simp_all [Heap.length, Tree.length, Heap.tag, Tree.tag, Value.isRef, Tree.list?]
    | @node a c us _ _ _ _ e =>
      cases c with
      | list => simp [Cell.shape, Tree.list?] at ht
      | record => simp [Heap.length, Tree.length, hv, Tree.list?, Cell.shape, Heap.tag, Tree.tag, e]
  · simp [Heap.length, Tree.length, hv, Tree.list?, fe.length_eq]

end Forest
end WhileStack
