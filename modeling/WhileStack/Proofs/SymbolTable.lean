import WhileStack.Proofs.Lower.Symbols
import Mathlib.Data.List.Induction
import Mathlib.Data.Nat.Find

/-! The symbol table against its history. Slots are the requests that were granted, in their order, and a name refers to
its last declaration in the innermost scope that is still open and has one. -/
namespace WhileStack.Lower.Symbols
open Machine (Local)

/-- What can be asked of a table. -/
inductive Op where
  | enter
  | exit
  | declare (name : String) (ty : Machine.Ty)
  | reserve (name : String) (ty : Machine.Ty)
  | lookup (name : String)
deriving DecidableEq, Repr

inductive Answer where
  | done
  | slot (given : Except LayoutError Local)
  | symbol (found : Option Local)
deriving DecidableEq

/-- The table with a slot that was given out; one that was refused leaves it as it is. -/
def grant (s : Symbols) : Except LayoutError (Local × Symbols) → Answer × Symbols
  | .ok (l, s') => (.slot (.ok l), s')
  | .error e => (.slot (.error e), s)

def perform (s : Symbols) : Op → Answer × Symbols
  | .enter => (.done, s.enter)
  | .exit => (.done, s.exit)
  | .declare name ty => s.grant (s.declare name ty)
  | .reserve name ty => s.grant (s.reserve name ty)
  | .lookup name => (.symbol (s.lookup? name), s)

/-- The table after a number of operations. -/
def afterAll (s : Symbols) (ops : List Op) : Symbols := ops.foldl (fun s op => (s.perform op).2) s

/-- A fresh table after its history. -/
def after (ops : List Op) : Symbols := empty.afterAll ops

/-- What is answered to an operation that comes behind a history. -/
def answer (ops : List Op) (op : Op) : Answer := ((after ops).perform op).1

/-! ### Histories -/

namespace Op

/-- The slot that is asked for, if it is for something that takes room. -/
def request : Op → Option (String × Machine.Ty)
  | declare name ty => if ty.isVoid then none else some (name, ty)
  | reserve name ty => if ty.isVoid then none else some (name, ty)
  | _ => none

/-- How many scopes are open inside the outermost one, which is never left. -/
def nest (depth : Nat) : Op → Nat
  | enter => depth + 1
  | exit => depth - 1
  | _ => depth

end Op

/-- The requests of a history that were granted, in order. -/
def granted (ops : List Op) : List (String × Machine.Ty) := ops.filterMap Op.request

def depth (ops : List Op) : Nat := ops.foldl Op.nest 0

/-- A name was declared behind the first operations of a history, and the scope that was the innermost there has not been
left since. -/
structure Visible (ops before : List Op) (name : String) (ty : Machine.Ty) : Prop where
  value : ty.isVoid = false
  declared : before ++ [.declare name ty] <+: ops
  opened : ∀ now, before <+: now → now <+: ops → depth before ≤ depth now

/-- The declaration that a name refers to: no visible one of the name is in a scope further inside, and none in the same
scope is later. -/
structure Binds (ops before : List Op) (name : String) (ty : Machine.Ty) : Prop extends Visible ops before name ty where
  innermost : ∀ before' ty', Visible ops before' name ty' → depth before' ≤ depth before
  latest : ∀ before' ty', Visible ops before' name ty' → depth before' = depth before → before'.length ≤ before.length

/-- The slot given out for a name behind the first operations of a history. -/
def slotAfter (before : List Op) (name : String) (ty : Machine.Ty) : Local := ⟨name, (granted before).length, ty⟩

/-- Operations that leave each scope they enter, and no other. -/
inductive Balanced : List Op → Prop
  | nil : Balanced []
  | plain {op ops} (he : op ≠ .enter) (hx : op ≠ .exit) (h : Balanced ops) : Balanced (op :: ops)
  | nested {inner ops} (hi : Balanced inner) (h : Balanced ops) : Balanced (.enter :: inner ++ .exit :: ops)

section
variable {ops before before' : List Op} {op : Op} {name name' : String} {ty ty' : Machine.Ty} {s s' : Symbols} {l : Local}
  {d k : Nat} {scope : Scope}

@[simp] private theorem after_snoc : after (ops ++ [op]) = ((after ops).perform op).2 := by
  simp [after, afterAll]

@[simp] private theorem depth_snoc : depth (ops ++ [op]) = op.nest (depth ops) := by
  simp [depth]

private theorem granted_append : granted (ops ++ before) = granted ops ++ granted before := List.filterMap_append

/-! ### What one operation does -/

private theorem reserve_of_value (h : ty.isVoid = false) :
    s.reserve name ty = .ok (⟨name, s.size, ty⟩, { s with allocated := ⟨name, s.size, ty⟩ :: s.allocated }) := by
  simp [reserve, Machine.Ty.width, h]

private theorem reserve_of_void (h : ty.isVoid = true) : s.reserve name ty = .error ⟨.void, .noSlot name⟩ := by
  simp [reserve, Machine.Ty.width, h]

private theorem declare_of_value (h : ty.isVoid = false) : s.declare name ty =
    .ok (⟨name, s.size, ty⟩,
      ⟨(name, ⟨name, s.size, ty⟩) :: s.inner, s.outer, ⟨name, s.size, ty⟩ :: s.allocated⟩) := by
  simp [declare, reserve_of_value h, bind, Except.bind]

private theorem declare_of_void (h : ty.isVoid = true) : s.declare name ty = .error ⟨.void, .noSlot name⟩ := by
  simp [declare, reserve_of_void h, bind, Except.bind]

/-- An operation gives out the slot that it asks for, and nothing else. -/
private theorem locals_perform : (s.perform op).2.locals =
    s.locals ++ op.request.toList.map fun r => ⟨r.1, s.size, r.2⟩ := by
  cases op with
  | enter => simp [perform, enter, locals, Op.request]
  | exit =>
    obtain ⟨inner, outer, allocated⟩ := s
    cases outer <;> simp [perform, exit, locals, Op.request]
  | declare name ty =>
    cases h : ty.isVoid with
    | true => simp [perform, declare_of_void h, grant, Op.request, h]
    | false => simp [perform, declare_of_value h, grant, Op.request, h, locals]
  | reserve name ty =>
    cases h : ty.isVoid with
    | true => simp [perform, reserve_of_void h, grant, Op.request, h]
    | false => simp [perform, reserve_of_value h, grant, Op.request, h, locals]
  | lookup name => simp [perform, Op.request]

private theorem locals_after (ops : List Op) :
    (after ops).locals = (granted ops).mapIdx fun i r => ⟨r.1, i, r.2⟩ := by
  induction ops using List.reverseRecOn with
  | nil => rfl
  | append_singleton ops op ih =>
    have hsize : (after ops).size = (granted ops).length := by
      have := congrArg List.length ih
      simpa [locals, size] using this
    rw [after_snoc, locals_perform, ih, hsize, granted_append]
    cases h : op.request <;> simp [granted, h]

private theorem size_after (ops : List Op) : (after ops).size = (granted ops).length := by
  simpa [locals, size] using congrArg List.length (locals_after ops)

private theorem granted_lt (hop : op.request.isSome = true) (h : before ++ [op] <+: before') :
    (granted before).length < (granted before').length := by
  obtain ⟨rest, rfl⟩ := h
  obtain ⟨r, hr⟩ := Option.isSome_iff_exists.mp hop
  simp only [granted_append, List.length_append]
  simp only [granted, List.filterMap_cons, hr, List.length_cons]
  omega

/-- Requests that were granted at different places of a history have different numbers. -/
private theorem granted_inj {op' : Op} (h : before ++ [op] <+: ops) (h' : before' ++ [op'] <+: ops)
    (hop : op.request.isSome = true) (hop' : op'.request.isSome = true)
    (hn : (granted before).length = (granted before').length) : op = op' := by
  rcases Nat.lt_trichotomy before.length before'.length with hlt | heq | hlt
  · have hpre := List.prefix_of_prefix_length_le h ((List.prefix_append _ _).trans h') (by simpa [Nat.succ_le_iff] using hlt)
    exact absurd hn (Nat.ne_of_lt (granted_lt hop hpre))
  · have hall := (List.prefix_of_prefix_length_le h h' (by simp [heq])).eq_of_length (by simp [heq])
    exact (List.cons.inj (List.append_inj' hall rfl).2).1
  · have hpre := List.prefix_of_prefix_length_le h' ((List.prefix_append _ _).trans h) (by simpa [Nat.succ_le_iff] using hlt)
    exact absurd hn.symm (Nat.ne_of_lt (granted_lt hop' hpre))

/-! ### Declarations that can be seen -/

/-- What can be seen after one more operation: the scopes that are still open, and a name that was just declared. -/
private theorem visible_snoc : Visible (ops ++ [op]) before name ty ↔
    (Visible ops before name ty ∧ depth before ≤ op.nest (depth ops)) ∨
      (before = ops ∧ op = .declare name ty ∧ ty.isVoid = false) := by
  constructor
  · rintro ⟨hv, hd, ho⟩
    rcases List.prefix_concat_iff.mp hd with heq | hpre
    · obtain ⟨rfl, hop⟩ := List.append_inj' heq rfl
      exact .inr ⟨rfl, (List.cons.inj hop).1.symm, hv⟩
    · refine .inl ⟨⟨hv, hpre, fun now hb hn => ho now hb (hn.trans (List.prefix_append ops [op]))⟩, ?_⟩
      have hb : before <+: ops := (List.prefix_append _ _).trans hpre
      simpa using ho _ (hb.trans (List.prefix_append ops [op])) (List.prefix_refl _)
  · rintro (⟨⟨hv, hd, ho⟩, hle⟩ | ⟨rfl, rfl, hv⟩)
    · refine ⟨hv, hd.trans (List.prefix_append ops [op]), fun now hb hn => ?_⟩
      rcases List.prefix_concat_iff.mp hn with rfl | hn
      · simpa using hle
      · exact ho now hb hn
    · refine ⟨hv, List.prefix_refl _, fun now hb hn => ?_⟩
      rcases List.prefix_concat_iff.mp hn with rfl | hn
      · simp [Op.nest]
      · rw [hn.eq_of_length_le hb.length_le]

private theorem Visible.depth_le (h : Visible ops before name ty) : depth before ≤ depth ops :=
  h.opened ops ((List.prefix_append _ _).trans h.declared) (List.prefix_refl _)

private theorem Visible.length_lt (h : Visible ops before name ty) : before.length < ops.length := by
  have := h.declared.length_le
  simp only [List.length_append, List.length_singleton] at this
  omega

/-- The last visible declaration of a name in the scope at a depth. -/
private structure LastAt (ops : List Op) (d : Nat) (before : List Op) (name : String) (ty : Machine.Ty) : Prop
    extends Visible ops before name ty where
  depth_eq : depth before = d
  last : ∀ before' ty', Visible ops before' name ty' → depth before' = d → before'.length ≤ before.length

private theorem Visible.exists_last (h : Visible ops before name ty) :
    ∃ before' ty', LastAt ops (depth before) before' name ty' := by
  classical
  let At (n : Nat) : Prop := ∃ before' ty', Visible ops before' name ty' ∧ depth before' = depth before ∧ before'.length = n
  have hat : At before.length := ⟨before, ty, h, rfl, rfl⟩
  obtain ⟨before', ty', hv, hd, hl⟩ := Nat.findGreatest_spec (P := At) (Nat.le_of_lt h.length_lt) hat
  refine ⟨before', ty', hv, hd, fun b t hb hbd => ?_⟩
  rw [hl]
  exact Nat.le_findGreatest (Nat.le_of_lt hb.length_lt) ⟨b, t, hb, hbd, rfl⟩

/-- What a name stands for in the scope at a depth. -/
private def Shows (ops : List Op) (d : Nat) (name : String) (l : Local) : Prop :=
  ∃ before ty, LastAt ops d before name ty ∧ l = slotAfter before name ty

/-- Operations that declare nothing of the name in a scope leave what it stands for, where the scope stays open. -/
private theorem shows_snoc (hd : d ≤ op.nest (depth ops))
    (hop : d = depth ops → ∀ ty, op = .declare name ty → ty.isVoid = true) :
    Shows (ops ++ [op]) d name l ↔ Shows ops d name l := by
  have hiff : ∀ b t, depth b = d → (Visible (ops ++ [op]) b name t ↔ Visible ops b name t) := by
    intro b t hb
    rw [visible_snoc]
    constructor
    · rintro (⟨hv, -⟩ | ⟨rfl, hdecl, hv⟩)
      · exact hv
      · exact absurd (hop hb.symm t hdecl) (by simp [hv])
    · exact fun hv => .inl ⟨hv, by rwa [hb]⟩
  constructor
  · rintro ⟨before, ty, ⟨hv, hb, hl⟩, rfl⟩
    exact ⟨before, ty, ⟨(hiff before ty hb).mp hv, hb, fun b t hv' hb' => hl b t ((hiff b t hb').mpr hv') hb'⟩, rfl⟩
  · rintro ⟨before, ty, ⟨hv, hb, hl⟩, rfl⟩
    exact ⟨before, ty, ⟨(hiff before ty hb).mpr hv, hb, fun b t hv' hb' => hl b t ((hiff b t hb').mp hv') hb'⟩, rfl⟩

/-- A declaration is the last one of its name in the innermost scope. -/
private theorem shows_declare (hv : ty.isVoid = false) :
    Shows (ops ++ [.declare name ty]) (depth ops) name l ↔ l = slotAfter ops name ty := by
  have hnew : Visible (ops ++ [.declare name ty]) ops name ty := visible_snoc.mpr (.inr ⟨rfl, rfl, hv⟩)
  constructor
  · rintro ⟨before, ty', ⟨hb, -, hl⟩, rfl⟩
    have hle := hl ops ty hnew rfl
    rcases visible_snoc.mp hb with ⟨hb, -⟩ | ⟨rfl, hop, -⟩
    · exact absurd hb.length_lt (by omega)
    · cases hop
      rfl
  · rintro rfl
    refine ⟨ops, ty, ⟨hnew, rfl, fun b t hb _ => ?_⟩, rfl⟩
    have := hb.length_lt
    simp only [List.length_append, List.length_singleton] at this
    omega

/-- Each open scope, counted from the innermost, holds the last declarations at its depth. -/
private structure Tracks (ops : List Op) (s : Symbols) : Prop where
  outer_length : s.outer.length = depth ops
  lookup_iff : ∀ (k d : Nat) scope, (s.inner :: s.outer)[k]? = some scope → k + d = depth ops → ∀ name l,
    scope.lookup name = some l ↔ Shows ops d name l

namespace Tracks

private theorem start : Tracks [] .empty where
  outer_length := rfl
  lookup_iff k d scope hk hd name l := by
    cases k with
    | zero =>
      obtain rfl : [] = scope := by simpa [empty] using hk
      constructor
      · rintro ⟨⟩
      · rintro ⟨before, ty, hb, -⟩
        exact absurd hb.length_lt (Nat.not_lt_zero _)
    | succ k => simp [empty] at hk

/-- An operation that declares nothing and enters or leaves no scope. -/
private theorem keep (h : Tracks ops s) (hn : op.nest (depth ops) = depth ops)
    (hop : ∀ name ty, op = .declare name ty → ty.isVoid = true) (hi : s'.inner = s.inner) (ho : s'.outer = s.outer) :
    Tracks (ops ++ [op]) s' where
  outer_length := by rw [ho, depth_snoc, hn, h.outer_length]
  lookup_iff k d scope hk hd name l := by
    rw [depth_snoc, hn] at hd
    rw [hi, ho] at hk
    rw [h.lookup_iff k d scope hk hd, shows_snoc (by omega) fun _ => hop name]

private theorem enter (h : Tracks ops s) : Tracks (ops ++ [.enter]) s.enter where
  outer_length := by simp [Symbols.enter, h.outer_length, Op.nest]
  lookup_iff k d scope hk hd name l := by
    rw [depth_snoc, Op.nest] at hd
    cases k with
    | zero =>
      -- Nothing was declared in the new scope yet.
      obtain rfl : [] = scope := by simpa [Symbols.enter] using hk
      constructor
      · rintro ⟨⟩
      · rintro ⟨before, ty, hb, -⟩
        rcases visible_snoc.mp hb.toVisible with ⟨hv, -⟩ | ⟨-, hop, -⟩
        · have := hv.depth_le
          have := hb.depth_eq
          omega
        · cases hop
    | succ k =>
      have hlt : d ≤ Op.enter.nest (depth ops) := by rw [Op.nest]; omega
      exact (h.lookup_iff k d scope hk (by omega) name l).trans (shows_snoc hlt fun _ _ => nofun).symm

private theorem exit (h : Tracks ops s) : Tracks (ops ++ [.exit]) s.exit := by
  obtain ⟨inner, outer, allocated⟩ := s
  cases outer with
  | nil =>
    have hdepth : depth ops = 0 := h.outer_length.symm
    exact h.keep (by rw [hdepth]; rfl) (fun _ _ => nofun) rfl rfl
  | cons scope outer =>
    have hdepth : depth ops = outer.length + 1 := h.outer_length.symm
    refine ⟨by simp [Symbols.exit, hdepth, Op.nest], fun k d scope' hk hd name l => ?_⟩
    rw [depth_snoc, hdepth, Op.nest] at hd
    have hle : d ≤ Op.exit.nest (depth ops) := by rw [hdepth, Op.nest]; omega
    exact (h.lookup_iff (k + 1) d scope' hk (by omega) name l).trans (shows_snoc hle fun _ _ => nofun).symm

private theorem declare (h : Tracks ops s) (hs : s.size = (granted ops).length) (hv : ty.isVoid = false) :
    Tracks (ops ++ [.declare name ty])
      ⟨(name, ⟨name, s.size, ty⟩) :: s.inner, s.outer, ⟨name, s.size, ty⟩ :: s.allocated⟩ where
  outer_length := by simp [h.outer_length, Op.nest]
  lookup_iff k d scope hk hd n l := by
    rw [depth_snoc, show Op.nest (depth ops) (.declare name ty) = depth ops from rfl] at hd
    cases k with
    | zero =>
      obtain rfl : d = depth ops := by omega
      obtain rfl : (name, ⟨name, s.size, ty⟩) :: s.inner = scope := by simpa using hk
      by_cases hn : n = name
      · subst hn
        rw [List.lookup_cons_self, hs, shows_declare hv]
        exact ⟨fun h => (Option.some.inj h).symm, fun h => congrArg some h.symm⟩
      · rw [List.lookup_cons, beq_false_of_ne hn]
        refine (h.lookup_iff 0 (depth ops) s.inner rfl (Nat.zero_add _) n l).trans
          (shows_snoc (Nat.le_refl (depth ops)) fun _ _ heq => ?_).symm
        exact absurd (Op.declare.inj heq).1.symm hn
    | succ k =>
      have hlt : d < depth ops := by omega
      exact (h.lookup_iff (k + 1) d scope hk hd n l).trans
        (shows_snoc (Nat.le_of_lt hlt) fun heq => absurd heq (Nat.ne_of_lt hlt)).symm

end Tracks

private theorem tracks_after (ops : List Op) : Tracks ops (after ops) := by
  induction ops using List.reverseRecOn with
  | nil => exact .start
  | append_singleton ops op ih =>
    rw [after_snoc]
    cases op with
    | enter => exact ih.enter
    | exit => exact ih.exit
    | declare name ty =>
      cases hv : ty.isVoid with
      | true =>
        rw [perform, declare_of_void hv]
        exact ih.keep rfl (fun _ _ heq => (Op.declare.inj heq).2 ▸ hv) rfl rfl
      | false =>
        rw [perform, declare_of_value hv]
        exact ih.declare (size_after ops) hv
    | reserve name ty =>
      cases hv : ty.isVoid with
      | true =>
        rw [perform, reserve_of_void hv]
        exact ih.keep rfl (fun _ _ => nofun) rfl rfl
      | false =>
        rw [perform, reserve_of_value hv]
        exact ih.keep rfl (fun _ _ => nofun) rfl rfl
    | lookup name => exact ih.keep rfl (fun _ _ => nofun) rfl rfl

/-! ### Lookups -/

/-- The scope at a depth that is open. -/
private theorem Tracks.scope_at (h : Tracks ops s) (hd : d ≤ depth ops) :
    ∃ scope, (s.inner :: s.outer)[depth ops - d]? = some scope := by
  have hlt : depth ops - d < (s.inner :: s.outer).length := by
    rw [List.length_cons, h.outer_length]
    omega
  exact ⟨_, List.getElem?_eq_getElem hlt⟩

/-- A visible declaration is found in its scope, as itself or through a later one. -/
private theorem Tracks.found (h : Tracks ops s) (hv : Visible ops before name ty)
    (hk : (s.inner :: s.outer)[k]? = some scope) (hd : k + depth before = depth ops) : scope.lookup name ≠ none := by
  obtain ⟨b, t, hl⟩ := hv.exists_last
  have := (h.lookup_iff k _ scope hk hd name _).mpr ⟨b, t, hl, rfl⟩
  simp [this]

private theorem lookup?_eq_none_iff : (after ops).lookup? name = none ↔ ∀ before ty, ¬ Visible ops before name ty := by
  have h := tracks_after ops
  rw [lookup?, List.findSome?_eq_none_iff]
  constructor
  · intro hnone before ty hv
    obtain ⟨scope, hk⟩ := h.scope_at hv.depth_le
    have hd := hv.depth_le
    exact h.found hv hk (by omega) (hnone scope (List.mem_of_getElem? hk))
  · intro hnone scope hs
    obtain ⟨k, hk⟩ := List.mem_iff_getElem?.mp hs
    have hle : k ≤ depth ops := by
      have := (List.getElem?_eq_some_iff.mp hk).1
      rw [List.length_cons, h.outer_length] at this
      omega
    by_contra hne
    obtain ⟨l, hl⟩ := Option.ne_none_iff_exists'.mp hne
    obtain ⟨before, ty, hb, -⟩ := (h.lookup_iff k (depth ops - k) scope hk (by omega) name l).mp hl
    exact hnone before ty hb.toVisible

private theorem lookup?_sound (hl : (after ops).lookup? name = some l) :
    ∃ before ty, Binds ops before name ty ∧ l = slotAfter before name ty := by
  have h := tracks_after ops
  obtain ⟨inside, scope, outside, hscopes, hl, hnone⟩ := List.findSome?_eq_some_iff.mp hl
  have hk : ((after ops).inner :: (after ops).outer)[inside.length]? = some scope := by rw [hscopes]; simp
  have hle : inside.length ≤ depth ops := by
    have := (List.getElem?_eq_some_iff.mp hk).1
    rw [List.length_cons, h.outer_length] at this
    omega
  obtain ⟨before, ty, hb, rfl⟩ := (h.lookup_iff _ (depth ops - inside.length) scope hk (by omega) name l).mp hl
  have hdepth := hb.depth_eq
  refine ⟨before, ty, ⟨hb.toVisible, fun b t hv => ?_, fun b t hv hd => hb.last b t hv (hd.trans hdepth)⟩, rfl⟩
  -- A scope further inside that had the name would have answered first.
  by_contra hlt
  obtain ⟨scope', hk'⟩ := h.scope_at hv.depth_le
  have hbd := hv.depth_le
  have hmem : scope' ∈ inside := by
    rw [hscopes, List.getElem?_append_left (by omega)] at hk'
    exact List.mem_of_getElem? hk'
  exact h.found hv hk' (by omega) (hnone scope' hmem)

/-- A name refers to one declaration at most. -/
private theorem Binds.unique (h : Binds ops before name ty) (h' : Binds ops before' name ty') :
    before = before' ∧ ty = ty' := by
  have hd : depth before = depth before' :=
    Nat.le_antisymm (h'.innermost before ty h.toVisible) (h.innermost before' ty' h'.toVisible)
  have hl : before.length = before'.length :=
    Nat.le_antisymm (h'.latest before ty h.toVisible hd) (h.latest before' ty' h'.toVisible hd.symm)
  have heq := (List.prefix_of_prefix_length_le h.declared h'.declared (by simp [hl])).eq_of_length (by simp [hl])
  obtain ⟨hbefore, hop⟩ := List.append_inj' heq rfl
  exact ⟨hbefore, (Op.declare.inj (List.cons.inj hop).1).2⟩

private theorem lookup?_eq_some_iff :
    (after ops).lookup? name = some l ↔ ∃ before ty, Binds ops before name ty ∧ l = slotAfter before name ty := by
  constructor
  · exact lookup?_sound
  · rintro ⟨before, ty, hb, rfl⟩
    have hne : (after ops).lookup? name ≠ none := fun hnone => lookup?_eq_none_iff.mp hnone before ty hb.toVisible
    obtain ⟨l, hl⟩ := Option.ne_none_iff_exists'.mp hne
    obtain ⟨before', ty', hb', rfl⟩ := lookup?_sound hl
    obtain ⟨rfl, rfl⟩ := hb.unique hb'
    exact hl

/-! ### Scopes that are entered and left -/

private theorem Grows.reserve (h : s.reserve name ty = .ok (l, s')) : s.Grows s' := by
  unfold Symbols.reserve at h
  split at h
  · cases h
  · cases h
    exact ⟨⟨[], rfl⟩, rfl, Nat.le_succ _⟩

private theorem Grows.plain (he : op ≠ .enter) (hx : op ≠ .exit) : s.Grows (s.perform op).2 := by
  cases op with
  | enter => exact absurd rfl he
  | exit => exact absurd rfl hx
  | declare name ty =>
    rw [perform]
    cases h : s.declare name ty with
    | ok r => exact .declare h
    | error e => exact .refl s
  | reserve name ty =>
    rw [perform]
    cases h : s.reserve name ty with
    | ok r => exact .reserve h
    | error e => exact .refl s
  | lookup name => exact .refl s

private theorem afterAll_nested (inside rest : List Op) :
    s.afterAll (.enter :: inside ++ .exit :: rest) = (s.enter.afterAll inside).exit.afterAll rest := by
  simp [afterAll, perform]

private theorem Balanced.grows {ops : List Op} (h : Balanced ops) (s : Symbols) : s.Grows (s.afterAll ops) := by
  induction h generalizing s with
  | nil => exact .refl s
  | plain he hx _ ih => exact (Grows.plain he hx).trans (ih _)
  | nested _ _ ihi ih =>
    rw [afterAll_nested]
    exact (ihi s.enter).exit.trans (ih _)

/-- What names refer to is brought back when the scope is left. -/
private theorem Balanced.lookup?_eq {inside : List Op} (h : Balanced inside) (name : String) :
    (after (ops ++ .enter :: inside ++ [.exit])).lookup? name = (after ops).lookup? name := by
  have hafter : after (ops ++ .enter :: inside ++ [.exit]) = ((after ops).enter.afterAll inside).exit := by
    simp [after, afterAll, perform]
  obtain ⟨hi, ho, -⟩ := (h.grows (after ops).enter).exit_eq
  rw [hafter, lookup?, lookup?, hi, ho]

end

/-- What a fresh table does after a history, in terms of the history alone. -/
structure Refines (ops : List Op) : Prop where
  size_eq : (after ops).size = (granted ops).length
  locals_eq : (after ops).locals = (granted ops).mapIdx fun i r => ⟨r.1, i, r.2⟩
  /-- No slot is given out twice. -/
  nodup : ((after ops).locals.map Local.slot).Nodup
  given : ∀ name ty, ty.isVoid = false → ∀ op, op = .declare name ty ∨ op = .reserve name ty →
    answer ops op = .slot (.ok (slotAfter ops name ty))
  refused : ∀ name ty, ty.isVoid = true → ∀ op, op = .declare name ty ∨ op = .reserve name ty →
    answer ops op = .slot (.error ⟨.void, .noSlot name⟩) ∧ after (ops ++ [op]) = after ops
  found : ∀ name l, answer ops (.lookup name) = .symbol (some l) ↔
    ∃ before ty, Binds ops before name ty ∧ l = slotAfter before name ty
  missing : ∀ name, answer ops (.lookup name) = .symbol none ↔ ∀ before ty, ¬ Visible ops before name ty
  /-- No name refers to a slot that was reserved. -/
  unseen : ∀ before name ty, before ++ [.reserve name ty] <+: ops → ∀ n,
    answer ops (.lookup n) ≠ .symbol (some (slotAfter before name ty))
  /-- Whatever is declared in a scope, all names refer to what they did before when it is left. -/
  restored : ∀ inside, Balanced inside → ∀ name,
    answer (ops ++ .enter :: inside ++ [.exit]) (.lookup name) = answer ops (.lookup name)

/-- The table does what its history says, whatever operations it is made of. -/
theorem table_refines_history (ops : List Op) : Refines ops where
  size_eq := size_after ops
  locals_eq := locals_after ops
  nodup := by
    have hrange : (after ops).locals.map Local.slot = List.range (granted ops).length := by
      rw [locals_after]
      exact List.ext_getElem (by simp) (by simp)
    rw [hrange]
    exact List.nodup_range
  given name ty hv op hop := by
    rcases hop with rfl | rfl
    · simp [answer, perform, declare_of_value hv, grant, size_after, slotAfter]
    · simp [answer, perform, reserve_of_value hv, grant, size_after, slotAfter]
  refused name ty hv op hop := by
    rcases hop with rfl | rfl
    · simp [answer, perform, declare_of_void hv, grant]
    · simp [answer, perform, reserve_of_void hv, grant]
  found name l := by
    rw [← lookup?_eq_some_iff]
    exact ⟨fun h => Answer.symbol.inj h, fun h => congrArg Answer.symbol h⟩
  missing name := by
    rw [← lookup?_eq_none_iff]
    exact ⟨fun h => Answer.symbol.inj h, fun h => congrArg Answer.symbol h⟩
  unseen before name ty hr n hl := by
    obtain ⟨before', ty', hb, heq⟩ := lookup?_eq_some_iff.mp (Answer.symbol.inj hl)
    obtain ⟨-, hlen, rfl⟩ := Local.mk.inj heq
    cases granted_inj hr hb.declared (by simp [Op.request, hb.value]) (by simp [Op.request, hb.value]) hlen
  restored inside hi name := congrArg Answer.symbol (hi.lookup?_eq name)

/-- A name is declared again inside a scope, then the scope is left. -/
example :
    let ops : List Op := [.reserve "this" (.object "c"), .declare "x" .int, .enter, .declare "x" .string]
    answer ops (.lookup "x") = .symbol (some ⟨"x", 2, .string⟩) ∧
    answer (ops ++ [.exit]) (.lookup "x") = .symbol (some ⟨"x", 1, .int⟩) ∧
    answer ops (.lookup "this") = .symbol none := by decide

end WhileStack.Lower.Symbols
