import WhileStack.Proofs.Tree.Path
import Mathlib.Data.List.Basic

/-! Roots with the trees they read as, where no cell is reached twice. Each operation on the heap keeps it so. -/
namespace WhileStack

abbrev Roots := List (Value × Tree)

/-- The roots share no cell with each other or within themselves, and use none in front of `b`. -/
def Owned (b : Nat) (h : Heap) (rs : Roots) : Prop := Fresh b h (rs.map Prod.fst) (rs.map Prod.snd)

theorem Fresh.owned {b : Nat} {h : Heap} {vs : List Value} {ts : List Tree} (f : Fresh b h vs ts) :
    Owned b h (vs.zip ts) := by
  unfold Owned
  rw [List.map_fst_zip (Nat.le_of_eq f.length_eq), List.map_snd_zip (Nat.le_of_eq f.length_eq.symm)]
  exact f

namespace Forest
variable {h : Heap} {F : List Nat} {rs rs' : Roots}

theorem perm (p : rs.Perm rs') (f : Forest h (rs.map Prod.fst) (rs.map Prod.snd) F) :
    ∃ G, Forest h (rs'.map Prod.fst) (rs'.map Prod.snd) G ∧ G.Perm F := by
  induction p generalizing F with
  | nil => exact ⟨F, f, .refl F⟩
  | cons r _ ih =>
    obtain ⟨_, _, G, K, ht, rfl, fr, f⟩ := f.uncons
    cases ht
    obtain ⟨K', f', hp⟩ := ih f
    exact ⟨G ++ K', fr.cons f', hp.append_left G⟩
  | swap r r' rs =>
    obtain ⟨_, _, G, K, ht, rfl, fr, f⟩ := f.uncons
    cases ht
    obtain ⟨_, _, G', K', ht, rfl, fr', f⟩ := f.uncons
    cases ht
    refine ⟨G' ++ (G ++ K'), fr'.cons (fr.cons f), ?_⟩
    simpa [← List.append_assoc] using List.perm_append_comm.append_right K'
  | trans _ _ ih ih' =>
    obtain ⟨G, f, hp⟩ := ih f
    obtain ⟨G', f, hp'⟩ := ih' f
    exact ⟨G', f, hp'.trans hp⟩

theorem sublist (s : rs'.Sublist rs) (f : Forest h (rs.map Prod.fst) (rs.map Prod.snd) F) :
    ∃ G, Forest h (rs'.map Prod.fst) (rs'.map Prod.snd) G ∧ G.Sublist F := by
  induction s generalizing F with
  | slnil => exact ⟨F, f, .refl F⟩
  | cons r _ ih =>
    obtain ⟨_, _, G, K, ht, rfl, -, f⟩ := f.uncons
    cases ht
    obtain ⟨K', f', hs⟩ := ih f
    exact ⟨K', f', hs.trans (List.sublist_append_right G K)⟩
  | cons_cons r _ ih =>
    obtain ⟨_, _, G, K, ht, rfl, fr, f⟩ := f.uncons
    cases ht
    obtain ⟨K', f', hs⟩ := ih f
    exact ⟨G ++ K', fr.cons f', (List.Sublist.refl G).append hs⟩

end Forest

namespace Owned
variable {b : Nat} {h h' : Heap} {v x : Value} {t u : Tree} {rs rs' : Roots}

theorem perm (o : Owned b h rs) (p : rs.Perm rs') : Owned b h rs' := by
  obtain ⟨F, f, hn, hb⟩ := o
  obtain ⟨G, g, hp⟩ := f.perm p
  exact ⟨G, g, hp.nodup_iff.mpr hn, fun a ha => hb a (hp.mem_iff.mp ha)⟩

/-- Roots may be given up and taken in any order. -/
theorem subperm (o : Owned b h rs) (s : rs'.Subperm rs) : Owned b h rs' := by
  obtain ⟨l, hl, hs⟩ := s
  obtain ⟨F, f, hn, hb⟩ := o
  obtain ⟨G, g, hG⟩ := f.sublist hs
  exact Owned.perm ⟨G, g, hn.sublist hG, fun a ha => hb a (hG.mem ha)⟩ hl

theorem drop (o : Owned b h ((v, t) :: rs)) : Owned b h rs := o.subperm (List.sublist_cons_self _ _).subperm

theorem leaf (o : Owned b h rs) (hv : v.isRef = false) : Owned b h ((v, .leaf v) :: rs) := by
  obtain ⟨F, f, hn, hb⟩ := o
  exact ⟨F, .leaf hv f, hn, hb⟩

theorem nulls (o : Owned b h rs) (n : Nat) : Owned b h (List.replicate n (.null, .null) ++ rs) := by
  induction n with
  | zero => exact o
  | succ n ih => exact ih.leaf rfl

theorem extend (o : Owned b h rs) (e : h.Extends h') : Owned b h' rs := Fresh.extend o e

/-- Each root alone reads as its tree. -/
theorem forest (o : Owned b h rs) (hm : (v, t) ∈ rs) : ∃ F, Forest h [v] [t] F ∧ F.Nodup ∧ ∀ a ∈ F, b ≤ a := by
  obtain ⟨F, f, hn, hb⟩ := o.subperm (show List.Subperm [(v, t)] rs from List.singleton_subperm_iff.mpr hm)
  exact ⟨F, f, hn, hb⟩

/-- What is made by an operation that leaves the heap as it was joins the roots. -/
theorem add (o : Owned b h rs) (e : h.Extends h') (hb : b ≤ h.cells.size) (f : Fresh h.cells.size h' [v] [t]) :
    Owned b h' ((v, t) :: rs) := by
  obtain ⟨F, hf, hn, hF⟩ := o
  obtain ⟨G, hg, hm, hG⟩ := f
  refine ⟨G ++ F, hg.cons (hf.extend e), hm.append hn fun a ha ha' => ?_, fun a ha => ?_⟩
  · have := hf.lt_size a ha'
    have := hG a ha
    omega
  · rcases List.mem_append.mp ha with ha | ha
    · exact Nat.le_trans hb (hG a ha)
    · exact hF a ha

/-- Roots move into a new list or record. -/
theorem alloc {vs : List Value} {ts : List Tree} (o : Owned b h (vs.zip ts ++ rs)) (hl : vs.length = ts.length)
    (hb : b ≤ h.cells.size) {c : Cell} (hc : c.children = vs) :
    Owned b (h.alloc c).2 (((h.alloc c).1, .node c.shape ts) :: rs) := by
  obtain ⟨F, f, hn, hF⟩ := o
  simp only [List.map_append, List.map_fst_zip (Nat.le_of_eq hl), List.map_snd_zip (Nat.le_of_eq hl.symm)] at f
  obtain ⟨us, us', G, K, ht, rfl, fv, fr⟩ := f.split
  obtain ⟨rfl, rfl⟩ := List.append_inj ht (by rw [← hl, fv.length_eq])
  subst hc
  have e := Heap.Extends.alloc h c
  refine ⟨h.cells.size :: (G ++ K), .node (h.cell?_alloc c) (fv.extend e) (fr.extend e), ?_, ?_⟩
  · refine List.nodup_cons.mpr ⟨fun ha => ?_, hn⟩
    exact Nat.lt_irrefl _ ((List.mem_append.mp ha).elim (fv.lt_size _) (fr.lt_size _))
  · intro a ha
    rcases List.mem_cons.mp ha with rfl | ha
    · exact hb
    · exact hF a ha

/-- A part of a root takes its place. -/
theorem follow (o : Owned b h ((x, t) :: rs)) {path : List Nat} (hu : t.get? path = some u) :
    ∃ w, h.follow x path = some w ∧ Owned b h ((w, u) :: rs) := by
  obtain ⟨F, f, hn, hb⟩ := o
  obtain ⟨_, _, G, K, ht, rfl, fx, fr⟩ := f.uncons
  cases ht
  obtain ⟨w, L, hw, fw, hs⟩ := fx.follow hu
  exact ⟨w, hw, L ++ K, fw.cons fr, hn.sublist (hs.append (List.Sublist.refl K)), fun a ha => hb a
    ((hs.append (List.Sublist.refl K)).mem ha)⟩

theorem follow_extend (o : Owned b h rs) (e : h.Extends h') (hm : (v, t) ∈ rs) (path : List Nat) :
    h'.follow v path = h.follow v path := by
  obtain ⟨F, f, -, -⟩ := o.forest hm
  exact f.follow_congr (fun a ha => e.cell_eq a (f.lt_size a ha)) path

/-- One root is put into another. The rest of the roots keep their trees, and paths into them their ends. -/
theorem put (o : Owned b h ((v, u) :: (x, t) :: rs)) {path : List Nat} {i a : Nat} {c c' : Cell}
    (ha : h.follow x path = some (.ref a)) (hc : h.cell? a = some c) (hi : i < c.children.length)
    (hs : c'.shape = c.shape) (hk : c'.children = c.children.set i v) :
    b ≤ a ∧ Owned b (h.write a c') ((x, t.put (path ++ [i]) u) :: rs) ∧
      ∀ r ∈ rs, ∀ q, (h.write a c').follow r.1 q = h.follow r.1 q := by
  obtain ⟨F, f, hn, hb⟩ := o
  obtain ⟨_, _, G, K, ht, rfl, fv, f⟩ := f.uncons
  cases ht
  obtain ⟨_, _, X, R, ht, rfl, fx, fr⟩ := f.uncons
  cases ht
  have hXG : (X ++ G).Nodup := (List.perm_append_comm.nodup_iff).mp (hn.sublist (by simp))
  obtain ⟨haX, M, fM, hM, hMs⟩ := fx.put fv hXG ha hc hi hs hk
  have hR : ∀ y ∈ R, (h.write a c').cell? y = h.cell? y := fun y hy => h.cell?_write_ne (fun hya => by
    subst hya
    simp only [List.nodup_append, List.mem_append] at hn
    exact hn.2.1.2.2 y haX y hy rfl) c'
  refine ⟨hb a (by simp [haX]), ⟨M ++ R, fM.cons (fr.of_cells hR), ?_, ?_⟩, ?_⟩
  · refine hM.append (hn.sublist (by simp)) fun y hy hyR => ?_
    simp only [List.nodup_append, List.mem_append] at hn
    rcases hMs y hy with hy | hy
    · exact hn.2.1.2.2 y hy y hyR rfl
    · exact hn.2.2 y hy y (.inr hyR) rfl
  · intro y hy
    rcases List.mem_append.mp hy with hy | hy
    · rcases hMs y hy with hy | hy <;> exact hb y (by simp [hy])
    · exact hb y (by simp [hy])
  · intro r hr q
    obtain ⟨F', f', hF'⟩ := fr.sublist (List.singleton_sublist.mpr hr)
    exact f'.follow_congr (fun y hy => hR y (hF'.mem hy)) q

end Owned
end WhileStack
