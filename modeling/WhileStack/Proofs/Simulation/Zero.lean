import WhileStack.Machine.Run
import WhileStack.Proofs.Reference.Stmt
import WhileStack.Proofs.Simulation.Typed
import WhileStack.Proofs.Source.Types
import WhileStack.Proofs.Tree.Copy

/-! Zero values. The one of a type is that of its layout, and the machine makes it out of new cells. -/
namespace WhileStack.Simulation
open Source (Ty Aliases)
open Lower (layoutWith fieldLayouts nameLayout valueLayout)
open Machine.Ty (isValue areValues)
open Reference (zeroWith zeroFieldsWith zeroName)

mutual

/-- The value that a parameter of a type starts with. -/
def zeroTree : Machine.Ty → Tree
  | .int => .leaf (.int 0)
  | .boolean => .leaf (.bool false)
  | .string => .leaf (.string "")
  | .list _ => .node .list []
  | .record fs => .node (.record (fs.map Prod.fst)) (zeroTrees fs)
  | _ => .null

def zeroTrees : List (String × Machine.Ty) → List Tree
  | [] => []
  | (_, t) :: fs => zeroTree t :: zeroTrees fs

end

mutual

theorem zeroTree_hasTy : ∀ {t : Machine.Ty}, isValue t = true → HasTy (zeroTree t) t
  | .int, _ => .int
  | .boolean, _ => .boolean
  | .string, _ => .string
  | .list _, _ => .list nofun
  | .record fs, h => .record (zeroTrees_hasTy (show areValues fs = true by simpa only [isValue] using h))

theorem zeroTrees_hasTy : ∀ {fs : List (String × Machine.Ty)}, areValues fs = true →
    List.Forall₂ HasTy (zeroTrees fs) (fs.map Prod.snd)
  | [], _ => .nil
  | (_, t) :: fs, h => by
    obtain ⟨ht, hfs⟩ := Bool.and_eq_true_iff.mp (by simpa only [areValues] using h)
    exact .cons (zeroTree_hasTy ht) (zeroTrees_hasTy hfs)

end

mutual

/-- The machine makes a zero value without a change to what is there. -/
theorem zero_fresh : ∀ {t : Machine.Ty} (h : Heap), isValue t = true →
    ∃ v h', Machine.zero h t = .ok (v, h') ∧ h.Extends h' ∧ Fresh h.cells.size h' [v] [zeroTree t]
  | .int, h, _ => ⟨_, h, rfl, .refl h, .leaf _ _ rfl⟩
  | .boolean, h, _ => ⟨_, h, rfl, .refl h, .leaf _ _ rfl⟩
  | .string, h, _ => ⟨_, h, rfl, .refl h, .leaf _ _ rfl⟩
  | .list _, h, _ => ⟨_, _, rfl, .alloc h _, (Fresh.nil _ h).alloc (c := .list []) (Nat.le_refl _) rfl⟩
  | .record fs, h, ht => by
    obtain ⟨vs, h', hz, he, hn, hf⟩ := zeroFields_fresh h (show areValues fs = true by simpa only [isValue] using ht)
    refine ⟨(h'.alloc (.record vs)).1, (h'.alloc (.record vs)).2, by simp [Machine.zero, hz, bind, Except.bind],
      he.trans (.alloc h' _), ?_⟩
    have := hf.alloc (c := .record vs) he.size_le rfl
    simpa only [Cell.shape, hn, zeroTree] using this

theorem zeroFields_fresh : ∀ {fs : List (String × Machine.Ty)} (h : Heap), areValues fs = true →
    ∃ vs h', Machine.zeroFields h fs = .ok (vs, h') ∧ h.Extends h' ∧ vs.map Prod.fst = fs.map Prod.fst ∧
      Fresh h.cells.size h' (vs.map Prod.snd) (zeroTrees fs)
  | [], h, _ => ⟨[], h, rfl, .refl h, rfl, .nil _ h⟩
  | (n, t) :: fs, h, ht => by
    obtain ⟨ht, hfs⟩ := Bool.and_eq_true_iff.mp (by simpa only [areValues] using ht)
    obtain ⟨v, h₁, hz, he, hf⟩ := zero_fresh h ht
    obtain ⟨vs, h₂, hz', he', hn, hf'⟩ := zeroFields_fresh h₁ hfs
    refine ⟨(n, v) :: vs, h₂, by simp [Machine.zeroFields, hz, hz', bind, Except.bind], he.trans he', by simp [hn], ?_⟩
    exact hf.cons he' he.size_le hf'

end

mutual

theorem zeroTree_comparable : ∀ {t : Machine.Ty}, isValue t = true → (zeroTree t).isComparable = true
  | .int, _ | .boolean, _ | .string, _ | .list _, _ => rfl
  | .record fs, h => zeroTrees_comparable (show areValues fs = true by simpa only [isValue] using h)

theorem zeroTrees_comparable : ∀ {fs : List (String × Machine.Ty)}, areValues fs = true →
    Tree.areComparable (zeroTrees fs) = true
  | [], _ => rfl
  | (_, t) :: fs, h => by
    obtain ⟨ht, hfs⟩ := Bool.and_eq_true_iff.mp (by simpa only [areValues] using h)
    rw [zeroTrees, Tree.areComparable, zeroTree_comparable ht, zeroTrees_comparable hfs, Bool.and_self]

end

theorem zeros_fresh {ts : List Machine.Ty} (h : Heap) (ht : ∀ t ∈ ts, isValue t = true) :
    ∃ vs h', Machine.zeros h ts = .ok (vs, h') ∧ h.Extends h' ∧ Fresh h.cells.size h' vs (ts.map zeroTree) := by
  induction ts generalizing h with
  | nil => exact ⟨[], h, rfl, .refl h, .nil _ h⟩
  | cons t ts ih =>
    obtain ⟨v, h₁, hz, he, hf⟩ := zero_fresh h (ht t (by simp))
    obtain ⟨vs, h₂, hz', he', hf'⟩ := ih h₁ fun t hm => ht t (by simp [hm])
    refine ⟨v :: vs, h₂, by simp [Machine.zeros, hz, hz', bind, Except.bind], he.trans he', ?_⟩
    exact hf.cons he' he.size_le hf'

section
variable {onName : String → Bool → Except Lower.LayoutError Machine.Ty} {onName' : String → Except Eval.ZeroError Tree}

mutual

private theorem zeroWith_layout (hn : ∀ n m, onName n false = .ok m → onName' n = .ok (zeroTree m)) :
    ∀ (t : Ty) {m : Machine.Ty}, layoutWith onName false t = .ok m → zeroWith onName' t = .ok (zeroTree m)
  | .void, _, h => by cases h
  | .bool, _, h => by cases h; rfl
  | .int, _, h => by cases h; rfl
  | .string, _, h => by cases h; rfl
  | .list t, m, h => by
    cases ht : layoutWith onName false t with
    | error e => simp [layoutWith, ht, bind, Except.bind] at h
    | ok u =>
      simp only [layoutWith, ht, bind, Except.bind, Except.ok.injEq] at h
      subst h
      rfl
  | .record fs, m, h => by
    cases hf : fieldLayouts onName fs with
    | error e => simp [layoutWith, hf, bind, Except.bind] at h
    | ok us =>
      simp only [layoutWith, hf, bind, Except.bind, Except.ok.injEq] at h
      subst h
      obtain ⟨hz, hnames⟩ := zeroFieldsWith_layout hn fs hf
      simp [zeroWith, hz, hnames, zeroTree, bind, Except.bind]
  | .named n, m, h => hn n m (by simpa only [layoutWith] using h)

private theorem zeroFieldsWith_layout (hn : ∀ n m, onName n false = .ok m → onName' n = .ok (zeroTree m)) :
    ∀ (fs : List (String × Ty)) {ms : List (String × Machine.Ty)}, fieldLayouts onName fs = .ok ms →
      zeroFieldsWith onName' fs = .ok (zeroTrees ms) ∧ fs.map Prod.fst = ms.map Prod.fst
  | [], _, h => by
    cases h
    exact ⟨rfl, rfl⟩
  | (n, t) :: fs, ms, h => by
    cases ht : layoutWith onName false t with
    | error e => simp [fieldLayouts, ht, bind, Except.bind] at h
    | ok u =>
      cases hf : fieldLayouts onName fs with
      | error e => simp [fieldLayouts, ht, hf, bind, Except.bind] at h
      | ok us =>
        simp only [fieldLayouts, ht, hf, bind, Except.bind, Except.ok.injEq] at h
        subst h
        obtain ⟨hz, hnames⟩ := zeroFieldsWith_layout hn fs hf
        simp [zeroFieldsWith, zeroWith_layout hn t ht, hz, hnames, zeroTrees, bind, Except.bind]

end

end

section
variable {aliases : Aliases} {left left' : Nat} {seen seen' : List String} {t u : Ty} {n : String} {m : Machine.Ty}

/-- More declarations and fewer names that may not come again change nothing. -/
private theorem follow_mono (h : aliases.follow left seen t = .ok u) (hl : left ≤ left') (hs : seen' ⊆ seen) :
    aliases.follow left' seen' t = .ok u := by
  induction left generalizing left' seen seen' t with
  | zero =>
    cases t with
    | named n =>
      obtain ⟨_, _, hk, -⟩ := Aliases.follow_eq_ok h
      omega
    | _ => simpa [Aliases.follow] using h
  | succ left ih =>
    cases t with
    | named n =>
      obtain ⟨_, t, hk, hn, ht, h⟩ := Aliases.follow_eq_ok h
      cases hk
      obtain ⟨k, rfl⟩ : ∃ k, left' = k + 1 := ⟨left' - 1, by omega⟩
      rw [Lower.follow_named (fun hm => hn (hs hm)) ht]
      exact ih h (by omega) (List.cons_subset_cons n hs)
    | _ => simpa [Aliases.follow] using h

/-- The type that stands behind a name has the layout of the name. -/
theorem layoutWith_follow (h : layoutWith (nameLayout aliases left seen) false t = .ok m) :
    ∃ u k seen', aliases.follow left seen t = .ok u ∧ k ≤ left ∧
      layoutWith (nameLayout aliases k seen') false u = .ok m := by
  induction left generalizing seen t with
  | zero =>
    cases t with
    | named n =>
      obtain ⟨_, _, hl, -⟩ := Lower.nameLayout_eq_ok h
      omega
    | _ => exact ⟨_, 0, seen, by simp [Aliases.follow], Nat.le_refl 0, h⟩
  | succ left ih =>
    cases t with
    | named n =>
      obtain ⟨_, t, hl, hs, ht, h⟩ := Lower.nameLayout_eq_ok h
      cases hl
      obtain ⟨u, k, seen', hu, hk, h⟩ := ih h
      exact ⟨u, k, seen', by rw [Lower.follow_named hs ht]; exact hu, Nat.le_succ_of_le hk, h⟩
    | _ => exact ⟨_, left + 1, seen, by simp [Aliases.follow], Nat.le_refl _, h⟩

private theorem zeroName_layout {fuel : Nat} (h : nameLayout aliases left seen n false = .ok m) (hl : left ≤ aliases.length)
    (hf : left ≤ fuel) : zeroName aliases fuel n = .ok (zeroTree m) := by
  induction fuel generalizing left seen n m with
  | zero =>
    obtain ⟨_, _, hk, -⟩ := Lower.nameLayout_eq_ok h
    omega
  | succ fuel ih =>
    obtain ⟨k, t, rfl, hs, ht, h⟩ := Lower.nameLayout_eq_ok h
    obtain ⟨u, k', seen', hu, hk', h⟩ := layoutWith_follow h
    have hunder : aliases.underlying (.named n) = .ok u :=
      follow_mono ((Lower.follow_named hs ht).trans hu) hl (List.nil_subset seen)
    simp only [zeroName, hunder]
    exact zeroWith_layout (fun _ _ h => ih h (by omega) (by omega)) u h

/-- A type of values has the zero value of its layout. -/
theorem zero_of_layout (h : valueLayout aliases t = .ok m) : Reference.zero aliases t = .ok (zeroTree m) :=
  zeroWith_layout (fun _ _ h => zeroName_layout h (Nat.le_refl _) (Nat.le_succ _)) t h

theorem zeroParams_of_layouts {function o : String} {ps : List (String × Ty)} {ms : List Machine.Ty}
    (h : List.Forall₂ (fun p m => valueLayout aliases p.2 = .ok m) ps ms) :
    Reference.zeroParams aliases function ps o = .ok (ms.map zeroTree) o := by
  induction h with
  | nil => rfl
  | cons hp _ ih => simp [Reference.zeroParams, zero_of_layout hp, ih]

end

end WhileStack.Simulation
