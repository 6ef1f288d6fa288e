import WhileStack.Proofs.Tree.Graph

/-! Later stores. What a value prints as and what it is equal to depends on the cells that it leads to, so it stays as it is
while values are put into other lists and records. -/
namespace WhileStack
open WhileStack.Tree (heights)

namespace Heap

private theorem all_zip_swap {α β : Type} {f : α → β → Bool} {g : β → α → Bool} (hfg : ∀ x y, f x y = g y x) (xs : List α)
    (ys : List β) : ((xs.zip ys).all fun p => f p.1 p.2) = (ys.zip xs).all fun p => g p.1 p.2 := by
  induction xs generalizing ys with
  | nil => cases ys <;> rfl
  | cons x xs ih =>
    cases ys with
    | nil => rfl
    | cons y ys => simp only [List.zip_cons_cons, List.all_cons, hfg x y, ih ys]

theorem equalTo_comm (h : Heap) (n : Nat) (v w : Value) : h.equalTo n v w = h.equalTo n w v := by
  induction n generalizing v w with
  | zero => cases v <;> cases w <;> simp only [equalTo, BEq.comm]
  | succ n ih =>
    cases v with
    | ref a =>
      cases w with
      | ref b =>
        cases ha : h.cell? a with
        | none => cases hb : h.cell? b <;> simp only [equalTo, ha, hb]
        | some c =>
          cases hb : h.cell? b with
          | none => simp only [equalTo, ha, hb]
          | some d =>
            rw [equalTo_ref n ha hb, equalTo_ref n hb ha, all_zip_swap ih, BEq.comm (a := c.shape),
              BEq.comm (a := c.children.length)]
      | _ => simp only [equalTo]
    | _ => cases w <;> simp only [equalTo, BEq.comm]

theorem equal_comm (h : Heap) (v w : Value) : h.equal v w = h.equal w v := h.equalTo_comm h.cells.size v w

/-- Stores into some cells, one after the other, with lists, records and objects made in between. Any values are stored,
also such as were made after the first store. -/
inductive Stores (P : Nat → Prop) (h : Heap) : Heap → Prop where
  | none : Stores P h h
  | elem {g a es} (i : Nat) (v : Value) : Stores P h g → P a → g.cell? a = some (.list es) → Stores P h (g.setElem a es i v)
  | field {g g' a fs name v} : Stores P h g → P a → g.cell? a = some (.record fs) →
    g.setField? a fs name v = some g' → Stores P h g'
  | alloc {g} (c : Cell) : Stores P h g → Stores P h (g.alloc c).2
  | object {g} (cls : String) : Stores P h g → Stores P h (g.newObject cls).2

/-- What stores into some cells keep of the others. -/
structure Spares (P : Nat → Prop) (h g : Heap) : Prop where
  size_le : h.cells.size ≤ g.cells.size
  cell_eq : ∀ a, a < h.cells.size → ¬ P a → g.cell? a = h.cell? a

variable {P : Nat → Prop} {h g : Heap} {a b : Nat}

theorem Spares.write (k : Spares P h g) (ha : P a) (c : Cell) : Spares P h (g.write a c) where
  size_le := by rw [size_write]; exact k.size_le
  cell_eq b hb hp := by
    have hne : b ≠ a := by
      rintro rfl
      exact hp ha
    rw [cell?_write_ne g hne c]
    exact k.cell_eq b hb hp

theorem Spares.extends {g' : Heap} (k : Spares P h g) (e : g.Extends g') : Spares P h g' where
  size_le := Nat.le_trans k.size_le e.size_le
  cell_eq b hb hp := (e.cell_eq b (Nat.lt_of_lt_of_le hb k.size_le)).trans (k.cell_eq b hb hp)

theorem Stores.spares (s : Stores P h g) : Spares P h g := by
  induction s with
  | none => exact ⟨Nat.le_refl _, fun _ _ _ => rfl⟩
  | elem i v _ ha _ ih => exact ih.write ha _
  | field _ ha _ hs ih =>
    obtain ⟨i, -, rfl⟩ := Option.map_eq_some_iff.mp hs
    exact ih.write ha _
  | alloc c _ ih => exact ih.extends (.alloc _ c)
  | object _ _ ih => exact ⟨ih.size_le, ih.cell_eq⟩

end Heap

namespace Forest
variable {h g : Heap} {v w : Value} {t : Tree} {vs ws : List Value} {ts : List Tree} {F : List Nat} {n m : Nat}

/-- Trees bound how far equality looks, whatever they are compared with. -/
theorem equals_congr (f : Forest h vs ts F) (e : ∀ a ∈ F, g.cell? a = h.cell? a) (hn : heights ts ≤ n)
    (hm : heights ts ≤ m) (hw : ∀ w ∈ ws, ∀ a, h.Leads w a → g.cell? a = h.cell? a) :
    ((vs.zip ws).all fun p => g.equalTo n p.1 p.2) = (vs.zip ws).all fun p => h.equalTo m p.1 p.2 := by
  induction f generalizing n m ws with
  | nil => rfl
  | @leaf v vs ts F hv _ ih =>
    cases ws with
    | nil => rfl
    | cons w ws =>
      simp only [heights, Tree.height, Nat.zero_max] at hn hm
      have hrest := ih e hn hm fun x hx => hw x (List.mem_cons_of_mem w hx)
      have hhead : g.equalTo n v w = h.equalTo m v w := by
        rcases w.isRef_cases with hr | ⟨b, rfl⟩
        · rw [g.equalTo_leaf n hv hr, h.equalTo_leaf m hv hr]
        · rw [(g.equalTo_leaf_ref n hv b).1, (h.equalTo_leaf_ref m hv b).1]
      simp only [List.zip_cons_cons, List.all_cons, hhead, hrest]
  | @node a c us vs ts F G ea _ _ ihc ih =>
    cases ws with
    | nil => rfl
    | cons w ws =>
      simp only [heights, Tree.height] at hn hm
      obtain ⟨n, rfl⟩ : ∃ k, n = k + 1 := ⟨n - 1, by omega⟩
      obtain ⟨m, rfl⟩ : ∃ k, m = k + 1 := ⟨m - 1, by omega⟩
      have hrest := ih (fun b hb => e b (by simp [hb])) (n := n + 1) (m := m + 1) (by omega) (by omega)
        fun x hx => hw x (List.mem_cons_of_mem w hx)
      have hhead : g.equalTo (n + 1) (.ref a) w = h.equalTo (m + 1) (.ref a) w := by
        rcases w.isRef_cases with hr | ⟨b, rfl⟩
        · rw [(g.equalTo_leaf_ref (n + 1) hr a).2, (h.equalTo_leaf_ref (m + 1) hr a).2]
        · have hga : g.cell? a = some c := (e a List.mem_cons_self).trans ea
          have hgb := hw (.ref b) List.mem_cons_self b .here
          cases hb : h.cell? b with
          | none => simp only [Heap.equalTo, hga, ea, hgb, hb]
          | some d =>
            have hchildren := ihc (fun x hx => e x (by simp [hx])) (n := n) (m := m) (by omega) (by omega)
              fun x hx y hl => hw (.ref b) List.mem_cons_self y (leads_of_child hb hx hl)
            rw [Heap.equalTo_ref n hga (hgb.trans hb), Heap.equalTo_ref m ea hb, hchildren]
      simp only [List.zip_cons_cons, List.all_cons, hhead, hrest]

theorem equal_congr (f : Forest h [v] [t] F) (e : ∀ a ∈ F, g.cell? a = h.cell? a) (hs : h.cells.size ≤ g.cells.size)
    (hw : ∀ a, h.Leads w a → g.cell? a = h.cell? a) : g.equal v w = h.equal v w := by
  have hh := f.heights_le_size
  have hws : ∀ x ∈ [w], ∀ a, h.Leads x a → g.cell? a = h.cell? a := by simpa using hw
  simpa [Heap.equal] using f.equals_congr e (Nat.le_trans hh hs) hh hws

end Forest
end WhileStack
