import WhileStack.Proofs.Tree.Copy

/-! Paths into a structure: reading what they lead to, and writing there. -/
namespace WhileStack

/-- The value that a path of child positions leads to. -/
def Heap.follow (h : Heap) : Value → List Nat → Option Value
  | v, [] => some v
  | .ref a, i :: path => (h.cell? a).bind fun c => c.children[i]?.bind fun v => h.follow v path
  | _, _ :: _ => none

namespace Heap

theorem follow_append (h : Heap) (v : Value) (p q : List Nat) :
    h.follow v (p ++ q) = (h.follow v p).bind fun w => h.follow w q := by
  induction p generalizing v with
  | nil => simp [follow]
  | cons i p ih => cases v <;> simp [follow, Option.bind_assoc, ih]

theorem cell?_write_self {h : Heap} {a : Nat} (ha : a < h.cells.size) (c : Cell) : (h.write a c).cell? a = some c := by
  simp [write, cell?, ha]

theorem cell?_write_ne (h : Heap) {a b : Nat} (hb : b ≠ a) (c : Cell) : (h.write a c).cell? b = h.cell? b := by
  simp [write, cell?, hb.symm]

theorem size_write (h : Heap) (a : Nat) (c : Cell) : (h.write a c).cells.size = h.cells.size := by
  simp [write]

end Heap

namespace Tree

theorem get?_cons (s : Shape) (ts : List Tree) (i : Nat) (path : List Nat) :
    (node s ts).get? (i :: path) = ts[i]?.bind fun t => t.get? path := rfl

theorem get?_append (t : Tree) (p q : List Nat) : t.get? (p ++ q) = (t.get? p).bind fun u => u.get? q := by
  induction p generalizing t with
  | nil => rfl
  | cons i p ih =>
    cases t with
    | leaf v => rfl
    | node s ts => simp only [List.cons_append, get?_cons, Option.bind_assoc, ih]

theorem put_cons {s : Shape} {ts : List Tree} {i : Nat} {t : Tree} (path : List Nat) (u : Tree) (ht : ts[i]? = some t) :
    (node s ts).put (i :: path) u = node s (ts.set i (t.put path u)) := by
  rw [put, List.modify_eq_set_getElem?, ht]
  rfl

end Tree

namespace Forest
variable {h h' : Heap} {v w x : Value} {t u : Tree} {vs ws : List Value} {ts us : List Tree} {F G : List Nat}

/-- One value of several, with what is needed to put another in its place. -/
theorem focus (f : Forest h vs ts F) {i : Nat} (hv : vs[i]? = some v) :
    ∃ t A G B, ts[i]? = some t ∧ F = A ++ G ++ B ∧ Forest h [v] [t] G ∧
      ∀ {k w u K}, (∀ a ∈ A ++ B, k.cell? a = h.cell? a) → Forest k [w] [u] K →
        Forest k (vs.set i w) (ts.set i u) (A ++ K ++ B) := by
  induction vs generalizing ts F i with
  | nil => simp at hv
  | cons x vs ih =>
    obtain ⟨s, us, G, K, rfl, rfl, fx, f⟩ := f.uncons
    cases i with
    | zero =>
      obtain rfl : x = v := by simpa using hv
      refine ⟨s, [], G, K, rfl, rfl, fx, fun e fw => ?_⟩
      exact fw.cons (f.of_cells fun a ha => e a (by simp [ha]))
    | succ i =>
      obtain ⟨t, A, L, B, ht, rfl, fv, hput⟩ := ih f (by simpa using hv)
      refine ⟨t, G ++ A, L, B, by simpa using ht, by simp, fv, fun e fw => ?_⟩
      have := (fx.of_cells fun a ha => e a (by simp [ha])).cons (hput (fun a ha => e a (by
        rcases List.mem_append.mp ha with ha | ha <;> simp [ha])) fw)
      simpa using this

/-- A single list or record, opened. -/
theorem opened (f : Forest h [v] [.node s ts] F) :
    ∃ a c G, v = .ref a ∧ h.cell? a = some c ∧ c.shape = s ∧ F = a :: G ∧ Forest h c.children ts G := by
  cases f with
  | @node a c us _ _ K L e fc f =>
    cases f
    exact ⟨a, c, K, rfl, e, rfl, by simp, fc⟩

theorem follow (f : Forest h [v] [t] F) {path : List Nat} (hu : t.get? path = some u) :
    ∃ w G, h.follow v path = some w ∧ Forest h [w] [u] G ∧ G.Sublist F := by
  induction path generalizing v t F with
  | nil =>
    obtain rfl : t = u := by simpa [Tree.get?] using hu
    exact ⟨v, F, by simp [Heap.follow], f, List.Sublist.refl F⟩
  | cons i path ih =>
    cases t with
    | leaf => simp [Tree.get?] at hu
    | node s ts =>
      obtain ⟨a, c, G, rfl, e, rfl, rfl, fc⟩ := f.opened
      rw [Tree.get?_cons] at hu
      obtain ⟨t, ht, hu⟩ := Option.bind_eq_some_iff.mp hu
      obtain ⟨v, hv⟩ : ∃ v, c.children[i]? = some v := by
        have hi := (List.getElem?_eq_some_iff.mp ht).1
        rw [← fc.length_eq] at hi
        exact ⟨_, List.getElem?_eq_getElem hi⟩
      obtain ⟨t', A, L, B, ht', rfl, fv, -⟩ := fc.focus hv
      cases ht.symm.trans ht'
      obtain ⟨w, K, hw, fw, hs⟩ := ih fv hu
      refine ⟨w, K, by simp [Heap.follow, e, hv, hw], fw, hs.trans ?_⟩
      refine List.Sublist.cons _ ?_
      rw [List.append_assoc]
      exact (List.sublist_append_left L B).trans (List.sublist_append_right A _)

/-- Paths stay among the cells that are visited. -/
theorem follow_congr (f : Forest h [v] [t] F) (e : ∀ a ∈ F, h'.cell? a = h.cell? a) (path : List Nat) :
    h'.follow v path = h.follow v path := by
  induction path generalizing v t F with
  | nil => simp [Heap.follow]
  | cons i path ih =>
    cases t with
    | leaf => cases f with | leaf hv => cases v <;> simp_all [Heap.follow, Value.isRef]
    | node s ts =>
      obtain ⟨a, c, G, rfl, ec, rfl, rfl, fc⟩ := f.opened
      simp only [Heap.follow, e a (by simp), ec, Option.bind_some]
      cases hv : c.children[i]? with
      | none => rfl
      | some v =>
        obtain ⟨t', A, L, B, -, rfl, fv, -⟩ := fc.focus hv
        exact ih fv fun b hb => e b (by simp [hb])

/-- Cells met in place of others, all of them known to differ from those around. -/
private theorem nodup_replace {A L B G K : List Nat} (hn : (A ++ L ++ B ++ G).Nodup) (hk : K.Nodup)
    (hs : ∀ b ∈ K, b ∈ L ∨ b ∈ G) : (A ++ K ++ B).Nodup := by
  simp only [List.nodup_append, List.mem_append] at hn ⊢
  obtain ⟨⟨⟨hA, hL, hAL⟩, hB, hLB⟩, -, hG⟩ := hn
  refine ⟨⟨hA, hk, fun a ha b hb => ?_⟩, hB, fun a ha b hb => ?_⟩
  · rcases hs b hb with hb | hb
    · exact hAL a ha b hb
    · exact hG a (.inl (.inl ha)) b hb
  · rcases ha with ha | ha
    · exact hLB a (.inl ha) b hb
    · rcases hs a ha with ha | ha
      · exact hLB a (.inr ha) b hb
      · exact fun e => hG b (.inr hb) a ha e.symm

/-- A value that shares nothing with a structure is put into it. Of the cells only the one written changes. -/
theorem put (f : Forest h [x] [t] F) (g : Forest h [v] [u] G) (hn : (F ++ G).Nodup) {path : List Nat} {i a : Nat}
    {c c' : Cell} (ha : h.follow x path = some (.ref a)) (hc : h.cell? a = some c) (hi : i < c.children.length)
    (hs : c'.shape = c.shape) (hk : c'.children = c.children.set i v) :
    a ∈ F ∧ ∃ K, Forest (h.write a c') [x] [t.put (path ++ [i]) u] K ∧ K.Nodup ∧ ∀ b ∈ K, b ∈ F ∨ b ∈ G := by
  induction path generalizing x t F with
  | nil =>
    obtain rfl : x = .ref a := by simpa [Heap.follow] using ha
    cases t with
    | leaf => cases f with | leaf hv => simp [Value.isRef] at hv
    | node s ts =>
      obtain ⟨a', d, K, hv, e, rfl, rfl, fc⟩ := f.opened
      obtain rfl : a = a' := by simpa using hv
      cases hc.symm.trans e
      obtain ⟨w, hw⟩ : ∃ w, c.children[i]? = some w := ⟨_, List.getElem?_eq_getElem hi⟩
      obtain ⟨t', A, L, B, ht', rfl, -, hput⟩ := fc.focus hw
      obtain ⟨hna, hn'⟩ := List.nodup_cons.mp (show (a :: (A ++ L ++ B ++ G)).Nodup from hn)
      have hx : ∀ b ∈ A ++ L ++ B ++ G, (h.write a c').cell? b = h.cell? b := fun b hb =>
        h.cell?_write_ne (fun hba => hna (by rwa [hba] at hb)) c'
      have fk := hput (k := h.write a c') (fun b hb => hx b (by simp at hb ⊢; grind))
        (g.of_cells fun b hb => hx b (by simp [hb]))
      rw [← hk] at fk
      have hsub : ∀ b ∈ A ++ G ++ B, b ∈ A ++ L ++ B ++ G := fun b hb => by simp at hb ⊢; grind
      refine ⟨by simp, a :: (A ++ G ++ B ++ []), ?_, ?_, ?_⟩
      · rw [List.nil_append, Tree.put_cons [] u ht', ← hs, Tree.put]
        exact .node (Heap.cell?_write_self (Heap.lt_of_cell? hc) c') fk .nil
      · rw [List.append_nil]
        exact List.nodup_cons.mpr ⟨fun hm => hna (hsub a hm),
          nodup_replace hn' (List.nodup_append.mp hn').2.1 fun b hb => .inr hb⟩
      · intro b hb
        simp at hb ⊢
        grind
  | cons j path ih =>
    cases t with
    | leaf => cases f with | leaf hv => cases x <;> simp_all [Heap.follow, Value.isRef]
    | node s ts =>
      obtain ⟨a', d, K, rfl, e, rfl, rfl, fc⟩ := f.opened
      simp only [Heap.follow, e, Option.bind_some] at ha
      obtain ⟨y, hy, ha⟩ := Option.bind_eq_some_iff.mp ha
      obtain ⟨ty, A, L, B, hty, rfl, fy, hput⟩ := fc.focus hy
      obtain ⟨hna, hn'⟩ := List.nodup_cons.mp (show (a' :: (A ++ L ++ B ++ G)).Nodup from hn)
      have hLG : (L ++ G).Nodup := hn'.sublist (by simp)
      obtain ⟨haL, M, fM, hM, hMs⟩ := ih fy hLG ha
      have hne : ∀ b ∈ a' :: (A ++ B), b ≠ a := by
        intro b hb hba
        subst hba
        rcases List.mem_cons.mp hb with rfl | hb
        · exact hna (by simp [haL])
        · simp only [List.nodup_append, List.mem_append] at hn' hb
          grind
      have hsub : ∀ b ∈ A ++ M ++ B, b ∈ A ++ L ++ B ++ G := fun b hb => by
        have := hMs b
        simp at hb ⊢
        grind
      refine ⟨by simp [haL], a' :: (A ++ M ++ B ++ []), ?_, ?_, ?_⟩
      · rw [List.cons_append, Tree.put_cons (path ++ [i]) u hty]
        refine .node ((h.cell?_write_ne (hne a' (by simp)) c').trans e) ?_ .nil
        have := hput (k := h.write a c') (fun b hb => h.cell?_write_ne (hne b (by simp at hb ⊢; grind)) c') fM
        obtain ⟨hj, rfl⟩ := List.getElem?_eq_some_iff.mp hy
        rwa [List.set_getElem_self] at this
      · rw [List.append_nil]
        exact List.nodup_cons.mpr ⟨fun hm => hna (hsub a' hm), nodup_replace hn' hM hMs⟩
      · intro b hb
        rcases List.mem_cons.mp hb with rfl | hb
        · simp
        · have := hsub b (by simpa using hb)
          simp at this ⊢
          grind

end Forest
end WhileStack
