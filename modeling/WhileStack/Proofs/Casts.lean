import WhileStack.Machine.Step
import WhileStack.Proofs.Exec
import WhileStack.Proofs.Lower.Cast
import WhileStack.Proofs.Tree.Graph
import WhileStack.Proofs.Tree.Select

/-! Casts of values. A value of a type becomes one of each type that it may be cast to, and a cast by way of a third type
gives what the direct one gives. -/
namespace WhileStack
open Machine (Ty)

/-- Values that hold no others, by their types. No value is of type void. -/
inductive Value.Conforms : Value → Ty → Prop where
  | int {n} : Conforms (.int n) .int
  | boolean {b} : Conforms (.bool b) .boolean
  | string {s} : Conforms (.string s) .string
  | object {id cls} : Conforms (.object id cls) (.object cls)
  | array {es} : Conforms (.array es) Ty.args

/-- The values of a type. A record has the fields of its layout, in this order. -/
inductive Heap.Conforms (h : Heap) : Value → Ty → Prop where
  | leaf {v ty} : v.Conforms ty → Conforms h v ty
  | list {a es ty} : h.cell? a = some (.list es) → (∀ e ∈ es, Conforms h e ty) → Conforms h (.ref a) (.list ty)
  | record {a fs gs} : h.cell? a = some (.record fs) → fs.map Prod.fst = gs.map Prod.fst →
    List.Forall₂ (Conforms h) (fs.map Prod.snd) (gs.map Prod.snd) → Conforms h (.ref a) (.record gs)

inductive Tree.Conforms : Tree → Ty → Prop where
  | leaf {v ty} : v.Conforms ty → Conforms (.leaf v) ty
  | list {ts ty} : (∀ t ∈ ts, Conforms t ty) → Conforms (.node .list ts) (.list ty)
  | record {ns ts gs} : ns = gs.map Prod.fst → List.Forall₂ Conforms ts (gs.map Prod.snd) →
    Conforms (.node (.record ns) ts) (.record gs)

theorem Value.Conforms.isRef_eq {v : Value} {ty : Ty} (h : v.Conforms ty) : v.isRef = false := by cases h <;> rfl

section
variable {h : Heap}

mutual

private theorem reads_of_conforms : ∀ {ty : Ty} {v : Value}, h.Conforms v ty → ∃ t, h.Reads v t ∧ t.Conforms ty
  | _, _, .leaf hv => ⟨_, ⟨_, .leaf hv.isRef_eq .nil⟩, .leaf hv⟩
  | .list ty, _, .list e hall => by
    obtain ⟨ts, F, f, hts⟩ := Heap.reads_all fun v hv => reads_of_conforms (hall v hv)
    exact ⟨_, ⟨_, .node e f .nil⟩, .list hts⟩
  | .record gs, _, .record e hn hall => by
    obtain ⟨ts, F, f, hts⟩ := forest_of_conform hall
    exact ⟨_, ⟨_, .node e f .nil⟩, .record hn hts⟩

private theorem forest_of_conform : ∀ {gs : List (String × Ty)} {vs : List Value},
    List.Forall₂ h.Conforms vs (gs.map Prod.snd) → ∃ ts F, Forest h vs ts F ∧ List.Forall₂ Tree.Conforms ts (gs.map Prod.snd)
  | [], [], _ => ⟨[], [], .nil, .nil⟩
  | (_, ty) :: gs, _ :: vs, .cons hv hvs => by
    obtain ⟨t, ⟨F, f⟩, ht⟩ := reads_of_conforms hv
    obtain ⟨ts, G, g, hts⟩ := forest_of_conform hvs
    exact ⟨t :: ts, F ++ G, f.cons g, .cons ht hts⟩

end

private theorem forall₂_replicate {α β : Type} {R : α → β → Prop} {xs : List α} {y : β} :
    List.Forall₂ R xs (List.replicate xs.length y) ↔ ∀ x ∈ xs, R x y := by
  induction xs with
  | nil => simp
  | cons x xs ih => simp [List.replicate_succ, ih]

/-- Values that read as trees of some types are of these types. -/
private theorem conform_of_forest {vs : List Value} {ts : List Tree} {F : List Nat} {tys : List Ty}
    (f : Forest h vs ts F) (hts : List.Forall₂ Tree.Conforms ts tys) : List.Forall₂ h.Conforms vs tys := by
  induction f generalizing tys with
  | nil =>
    cases hts
    exact .nil
  | leaf hv _ ih =>
    obtain ⟨ty, tys, ht, hall, rfl⟩ := List.forall₂_cons_left_iff.mp hts
    cases ht with
    | leaf hv => exact .cons (.leaf hv) (ih hall)
  | @node a c us vs ts F G e fc _ ihc ih =>
    obtain ⟨ty, tys, ht, hrest, rfl⟩ := List.forall₂_cons_left_iff.mp hts
    refine .cons ?_ (ih hrest)
    cases c with
    | list es =>
      cases ht with
      | list hall =>
        have hes := ihc (forall₂_replicate.mpr hall)
        rw [← fc.length_eq] at hes
        exact .list e (forall₂_replicate.mp hes)
    | record fs =>
      cases ht with
      | record hn hall => exact .record e hn (ihc hall)

theorem Heap.conforms_iff {v : Value} {ty : Ty} : h.Conforms v ty ↔ ∃ t, h.Reads v t ∧ t.Conforms ty := by
  constructor
  · exact reads_of_conforms
  · rintro ⟨t, ⟨F, f⟩, ht⟩
    obtain ⟨hv, -⟩ := List.forall₂_cons.mp (conform_of_forest f (.cons ht .nil))
    exact hv

end

namespace Machine.Ty

mutual

/-- An argument vector is part of the values of the type. -/
def holdsArray : Ty → Bool
  | .list t => holdsArray t
  | .record fs => anyHoldsArray fs
  | .array _ => true
  | _ => false

def anyHoldsArray : List (String × Ty) → Bool
  | [] => false
  | (_, t) :: fs => holdsArray t || anyHoldsArray fs

end

end Machine.Ty

namespace Tree
variable {a b c ty : Ty} {t u w : Tree}

mutual

theorem Conforms.comparable : ∀ {ty : Ty} {t : Tree}, t.Conforms ty → ty.holdsArray = false → t.isComparable = true
  | _, _, .leaf hv, h => by cases hv <;> first | rfl | cases h
  | .list ty, _, .list hall, h => by
    rw [isComparable]
    exact areComparable_iff.mpr fun t ht => (hall t ht).comparable h
  | .record gs, _, .record _ hall, h => by
    rw [isComparable]
    exact conform_comparable hall h

private theorem conform_comparable : ∀ {gs : List (String × Ty)} {ts : List Tree},
    List.Forall₂ Conforms ts (gs.map Prod.snd) → Ty.anyHoldsArray gs = false → areComparable ts = true
  | [], [], _, _ => rfl
  | (_, ty) :: gs, t :: ts, .cons ht hts, h => by
    obtain ⟨hty, hgs⟩ := Bool.or_eq_false_iff.mp (by simpa only [Ty.anyHoldsArray] using h)
    rw [areComparable, ht.comparable hty, conform_comparable hts hgs, Bool.and_self]

end

/-- A cast, by the trees that its operand and its value read as. -/
inductive Casts : Ty → Ty → Tree → Tree → Prop where
  | keep {a : Ty} {t : Tree} : Casts a a t t
  | text {a : Ty} {t : Tree} : a ≠ .string → Casts a .string t (.leaf (.string t.format))
  | fields {gs fs : List (String × Ty)} {ns : List String} {ts us : List Tree} : gs ≠ fs →
    Tree.select (ns.zip ts) (fs.map Prod.fst) = .ok us →
    Casts (.record gs) (.record fs) (.node (.record ns) ts) (.node (.record (fs.map Prod.fst)) us)

theorem Conforms.casts (ht : t.Conforms a) (h : Lower.CanCast a b) : ∃ u, Casts a b t u ∧ u.Conforms b := by
  by_cases he : a = b
  · subst he
    exact ⟨t, .keep, ht⟩
  · cases (Lower.canCast_iff.mp h).resolve_left he with
    | int => exact ⟨_, .text he, .leaf .string⟩
    | boolean => exact ⟨_, .text he, .leaf .string⟩
    | record hs =>
      cases ht with
      | leaf hv => cases hv
      | record hn hall =>
        subst hn
        obtain ⟨us, hus, hall⟩ := select_ok (forall₂_zip_names hall) hs
        exact ⟨_, .fields (by simpa using he) hus, .record rfl hall⟩

/-- Two casts on end are one. Where they lead back to the type that they start from, all fields are selected again. -/
theorem Casts.trans (ht : t.Conforms a) (hn : (a.fields.map Prod.fst).Nodup) (h : Casts a b t u) (h' : Casts b c u w)
    (hb : Lower.CanCast b c) : Casts a c t w := by
  cases h with
  | keep => exact h'
  | text ha =>
    cases h' with
    | keep => exact .text ha
    | text hs => exact absurd rfl hs
  | @fields gs fs ns ts us hne hus =>
    cases h' with
    | keep => exact .fields hne hus
    | text => cases hb
    | @fields _ hs _ _ ws _ hws =>
      have hsel := select_select hus hws
      by_cases he : gs = hs
      · subst he
        cases ht with
        | record hns hall =>
          subst hns
          have hl : (gs.map Prod.fst).length = ts.length := by
            rw [hall.length_eq, List.length_map, List.length_map]
          cases hsel.symm.trans (select_all hn hl)
          exact .keep
      · exact .fields he hsel

end Tree

namespace Lower
variable {a b c : Ty} {t u : Tree}

/-- What the code of a cast does with a value: nothing where the types are the same, and a conversion where they are not. -/
def performCast (f : Machine.Frame) (source target : Ty) (v : Value) : Machine.Exec Value :=
  match castKind? source target with
  | some .identity => pure v
  | some .convert => Machine.convert f source target v
  | none => Machine.fail f (.noConversion source target)

theorem performCast_self (f : Machine.Frame) (a : Ty) (v : Value) : performCast f a a v = pure v := by
  rw [performCast, castKind?_self]

theorem performCast_of_ne (h : CanCast a b) (hne : a ≠ b) (f : Machine.Frame) (v : Value) :
    performCast f a b v = Machine.convert f a b v := by
  rw [performCast, castKind?_convert.mpr ⟨hne, (canCast_iff.mp h).resolve_left hne⟩]

/-- A cast adds to the heap at most, prints nothing, and gives a value that reads as the tree that it should. -/
theorem performCast_reads {s : Store} {v : Value} (h : CanCast a b) (hv : s.heap.Reads v t) (hc : Tree.Casts a b t u)
    (f : Machine.Frame) : ∃ w s', performCast f a b v s = .ok w s' ∧ s.heap.Extends s'.heap ∧ s'.out = s.out ∧
      s'.heap.Reads w u := by
  cases hc with
  | keep => exact ⟨v, s, by rw [performCast_self]; rfl, .refl _, rfl, hv⟩
  | text hne =>
    obtain ⟨F, g⟩ := hv
    refine ⟨.string t.format, s, ?_, .refl _, rfl, [], .leaf rfl .nil⟩
    rw [performCast_of_ne h hne, ← g.format_eq]
    rfl
  | @fields gs fs ns ts us hne hus =>
    obtain ⟨F, g⟩ := hv
    rcases g.record?_cases with ⟨-, hnone⟩ | ⟨x, cells, us', G, hx, ht, -, rfl, -, gs'⟩
    · cases hnone
    · cases ht
      rcases gs'.project (fs.map Prod.fst) with ⟨e, -, he⟩ | ⟨w, h', u, hw, hu, hext, K, k, -⟩
      · simp [Tree.project, hus, bind, Except.bind] at he
      · obtain rfl : _ = u := by simpa [Tree.project, hus, bind, Except.bind] using hu
        refine ⟨w, { s with heap := h' }, ?_, hext, rfl, K, k⟩
        rw [performCast_of_ne h (by simpa using hne)]
        simp [Machine.convert, hx, Machine.onHeap, hw]

end Lower

/-- Two values of two heaps have one structure: they read as the same tree. -/
def Heap.Alike (h : Heap) (v : Value) (h' : Heap) (w : Value) : Prop := ∃ t, h.Reads v t ∧ h'.Reads w t

namespace Lower

/-- Casts over three types. They reach no further in two steps than in one, they succeed on all values of their source, and
both ways from one structure lead to one structure. -/
structure Coherent (a b c : Ty) : Prop where
  self : castKind? a a = some .identity
  trans : CanCast a b → CanCast b c → CanCast a c
  cast : CanCast a b → ∀ (f : Machine.Frame) (s : Store) (v : Value), s.heap.Conforms v a →
    ∃ w s', performCast f a b v s = .ok w s' ∧ s'.heap.Conforms w b ∧ s.heap.Extends s'.heap ∧ s'.out = s.out
  /-- The direct cast may be made in another store, as before the others or behind them. -/
  cast_cast : CanCast a b → CanCast b c → ∀ (f : Machine.Frame) (s s' : Store) (v v' : Value), s.heap.Conforms v a →
    s.heap.Alike v s'.heap v' → ∃ w s₁ x s₂ y s₃, performCast f a b v s = .ok w s₁ ∧ performCast f b c w s₁ = .ok x s₂ ∧
      performCast f a c v' s' = .ok y s₃ ∧ s₂.heap.Alike x s₃.heap y ∧
      (c.holdsArray = false → ∀ h, s₂.heap.Extends h → s₃.heap.Extends h → h.equal x y = true ∧ h.equal y x = true)

theorem performCast_ok (h : CanCast a b) (f : Machine.Frame) {s : Store} {v : Value} (hv : s.heap.Conforms v a) :
    ∃ w s', performCast f a b v s = .ok w s' ∧ s'.heap.Conforms w b ∧ s.heap.Extends s'.heap ∧ s'.out = s.out := by
  obtain ⟨t, hr, ht⟩ := Heap.conforms_iff.mp hv
  obtain ⟨u, hc, hu⟩ := ht.casts h
  obtain ⟨w, s', hw, hext, hout, hr'⟩ := performCast_reads h hr hc f
  exact ⟨w, s', hw, Heap.conforms_iff.mpr ⟨u, hr', hu⟩, hext, hout⟩

theorem performCast_performCast (hn : (a.fields.map Prod.fst).Nodup) (h : CanCast a b) (h' : CanCast b c)
    (f : Machine.Frame) {s s' : Store} {v v' : Value} (hv : s.heap.Conforms v a) (halike : s.heap.Alike v s'.heap v') :
    ∃ w s₁ x s₂ y s₃ t, performCast f a b v s = .ok w s₁ ∧ performCast f b c w s₁ = .ok x s₂ ∧
      performCast f a c v' s' = .ok y s₃ ∧ s₂.heap.Reads x t ∧ s₃.heap.Reads y t ∧ t.Conforms c := by
  obtain ⟨t, hr, ht⟩ := Heap.conforms_iff.mp hv
  obtain ⟨t', hr', hr''⟩ := halike
  cases hr.unique hr'
  obtain ⟨u, hu, hub⟩ := ht.casts h
  obtain ⟨x, hx, hxc⟩ := hub.casts h'
  obtain ⟨w₁, s₁, hw₁, -, -, h₁⟩ := performCast_reads h hr hu f
  obtain ⟨w₂, s₂, hw₂, -, -, h₂⟩ := performCast_reads h' h₁ hx f
  obtain ⟨w₃, s₃, hw₃, -, -, h₃⟩ := performCast_reads (h.trans h') hr'' (hu.trans ht hn hx h') f
  exact ⟨w₁, s₁, w₂, s₂, w₃, s₃, x, hw₁, hw₂, hw₃, h₂, h₃, hxc⟩

/-- Casts are a preorder that values follow, where the source names no field twice. -/
theorem casts_coherent (hn : (a.fields.map Prod.fst).Nodup) : Coherent a b c where
  self := castKind?_self a
  trans := .trans
  cast h f s v hv := performCast_ok h f hv
  cast_cast h h' f s s' v v' hv halike := by
    obtain ⟨w, s₁, x, s₂, y, s₃, t, hw, hx, hy, hr, hr', ht⟩ := performCast_performCast hn h h' f hv halike
    refine ⟨w, s₁, x, s₂, y, s₃, hw, hx, hy, ⟨t, hr, hr'⟩, fun harray heap hext hext' => ?_⟩
    obtain ⟨F, g⟩ := hr.extend hext
    obtain ⟨G, k⟩ := hr'.extend hext'
    have hself := Tree.equal_self (ht.comparable harray)
    exact ⟨by rw [g.equal_eq k, hself], by rw [k.equal_eq g, hself]⟩

/-- A record whose fields change places and go back is another record, and equal to the one that stayed as it was. -/
theorem swapped_twice_coherently :
    let point : Ty := .record [("x", .int), ("y", .boolean)]
    let swapped : Ty := .record [("y", .boolean), ("x", .int)]
    let s : Store := ⟨⟨#[.record [("x", .int 1), ("y", .bool true)]], 0⟩, ""⟩
    s.heap.Conforms (.ref 0) point ∧ ∀ f, ∃ w s₁ x s₂, performCast f point swapped (.ref 0) s = .ok w s₁ ∧
      performCast f swapped point w s₁ = .ok x s₂ ∧ s₂.heap.equal x (.ref 0) = true := by
  intro point swapped s
  have hcell : s.heap.cell? 0 = some (.record [("x", .int 1), ("y", .bool true)]) := rfl
  have hv : s.heap.Conforms (.ref 0) point :=
    .record hcell rfl (.cons (.leaf .int) (.cons (.leaf .boolean) .nil))
  have hc : Coherent point swapped point := casts_coherent (by decide)
  refine ⟨hv, fun f => ?_⟩
  obtain ⟨t, hr, -⟩ := Heap.conforms_iff.mp hv
  obtain ⟨w, s₁, x, s₂, y, s₃, hw, hx, hy, -, heq⟩ :=
    hc.cast_cast (by decide) (by decide) f s s (.ref 0) (.ref 0) hv ⟨t, hr, hr⟩
  obtain ⟨w', s₁', hw', hvw, hext, -⟩ := hc.cast (by decide) f s (.ref 0) hv
  cases hw.symm.trans hw'
  have hback : Coherent swapped point swapped := casts_coherent (by decide)
  obtain ⟨x', s₂', hx', -, hext', -⟩ := hback.cast (by decide) f s₁ w hvw
  cases hx.symm.trans hx'
  rw [performCast_self] at hy
  cases hy
  exact ⟨w, s₁, x, s₂, hw, hx, (heq rfl s₂.heap (.refl _) (hext.trans hext')).1⟩

end Lower
end WhileStack
