import Mathlib.Data.List.Basic
import WhileStack.Proofs.Eval.Visits
import WhileStack.Proofs.Lower.Compiled
import WhileStack.Proofs.Lower.Places

/-! Static scoping: whenever a place of a body is evaluated, the variables that can be seen are those that could be
seen when it was lowered, each made by the declaration that was given its slot. The exception is a loop whose step
declares a variable, which later rounds see and the code of the loop does not. -/
namespace WhileStack
open Source (Stmt FunDecl Place Part Origin)
open Eval (Point Visits addName lookupIn setFirst setVar)
open Lower (Lowered Scope Symbols)

/-- No loop has a declaration as its step. -/
abbrev NoDeclInSteps (body : List Stmt) : Prop := Stmt.everyStepIn (fun s => !s.isDecl) body = true

/-- The slot of a variable was given out to its origin: to the parameter, or by lowering the declaration. -/
def GivenOut (h : Lower.Host) (f : FunDecl) (start : Lower.State) : Origin → String × Machine.Local → Prop
  | .param i, b => (f.params.map Prod.fst)[i]? = some b.1 ∧ b.2.slot = i + 1
  | .place p, b => ∃ d s c s', (Lowered h f.body start p (.stmt (.decl d)) s ∨ Lowered h f.body start p (.decl d) s) ∧
    Lower.declCode h d s = .ok (c, s') ∧ d.name = b.1 ∧ s'.symbols.scopes = (b :: s.symbols.inner) :: s.symbols.outer

/-- A name stands for one variable, for reading and for writing, and its slot was given out to the origin of that
variable; or else for none in evaluation and lowering alike. -/
def StandsAlike (given : Origin → String × Machine.Local → Prop) (c : Point) (s : Symbols) (name : String) : Prop :=
  (lookupIn c.frame.scopes name = none ∧ s.lookup? name = none) ∨
    ∃ i x o l, c.frame.scopes.flatten[i]? = some (name, x) ∧ c.origins.flatten[i]? = some (name, o) ∧
      lookupIn c.frame.scopes name = some x ∧
      (∀ y, (setVar name y c.frame.scopes).map List.flatten = some (c.frame.scopes.flatten.set i (name, y))) ∧
      s.lookup? name = some l ∧ given o (name, l)

section
variable {α β : Type} (name : String)

private theorem lookup_eq_getElem? (xs : List (String × α)) :
    xs.lookup name = xs[(xs.map Prod.fst).idxOf name]?.map Prod.snd := by
  induction xs with
  | nil => rfl
  | cons x xs ih =>
    obtain ⟨n, a⟩ := x
    by_cases hn : n = name
    · subst hn
      simp
    · rw [List.lookup_cons, beq_false_of_ne (Ne.symm hn), List.map_cons, List.idxOf_cons_ne _ hn]
      exact ih

private theorem getElem?_of_mem {xs : List (String × α)} (h : name ∈ xs.map Prod.fst) :
    ∃ a, xs[(xs.map Prod.fst).idxOf name]? = some (name, a) := by
  have hn := List.getElem?_idxOf h
  rw [List.getElem?_map, Option.map_eq_some_iff] at hn
  obtain ⟨⟨n, a⟩, hx, rfl⟩ := hn
  exact ⟨a, hx⟩

private theorem setFirst_eq (y : Value) (s : Eval.Scope) : setFirst name y s =
    if name ∈ s.map Prod.fst then some (s.set ((s.map Prod.fst).idxOf name) (name, y)) else none := by
  induction s with
  | nil => rfl
  | cons e rest ih =>
    obtain ⟨n, x⟩ := e
    by_cases hn : n = name
    · subst hn
      simp [setFirst]
    · rw [setFirst, if_neg hn, ih, List.map_cons, List.idxOf_cons_ne _ hn]
      split <;> simp_all [Ne.symm hn]

/-- Writing replaces the variable that reading finds. -/
private theorem setVar_flatten (y : Value) {scopes : List Eval.Scope} (h : name ∈ scopes.flatten.map Prod.fst) :
    (setVar name y scopes).map List.flatten =
      some (scopes.flatten.set ((scopes.flatten.map Prod.fst).idxOf name) (name, y)) := by
  induction scopes with
  | nil => cases h
  | cons s rest ih =>
    rw [setVar, setFirst_eq, List.flatten_cons, List.map_append]
    by_cases hs : name ∈ s.map Prod.fst
    · have hlt : (s.map Prod.fst).idxOf name < s.length := by simpa using List.idxOf_lt_length_iff.mpr hs
      rw [if_pos hs, List.idxOf_append_of_mem hs, List.set_append_left _ _ hlt]
      rfl
    · rw [List.flatten_cons, List.map_append, List.mem_append] at h
      have hr := ih (h.resolve_left hs)
      rw [if_neg hs, List.idxOf_append_of_notMem hs, List.length_map, List.set_append_right _ _ (Nat.le_add_right _ _),
        Nat.add_sub_cancel_left]
      obtain ⟨rest', hv, hf⟩ := Option.map_eq_some_iff.mp hr
      simp [hv, hf]

end

/-- Variables of evaluation and of lowering, scope by scope. -/
structure ScopesAgree (given : Origin → String × Machine.Local → Prop) (names : List (List String))
    (origins : List (List (String × Origin))) (scopes : List Scope) : Prop where
  names_eq : names = scopes.map fun s => s.map Prod.fst
  origins : List.Forall₂ (List.Forall₂ fun o b => o.1 = b.1 ∧ given o.2 b) origins scopes

section
variable {given : Origin → String × Machine.Local → Prop} {names : List (List String)}
  {origins : List (List (String × Origin))} {scopes rest : List Scope} {scope : Scope}

namespace ScopesAgree

theorem enter (ha : ScopesAgree given names origins scopes) :
    ScopesAgree given ([] :: names) ([] :: origins) ([] :: scopes) :=
  ⟨by rw [ha.names_eq]; rfl, .cons .nil ha.origins⟩

theorem declare (ha : ScopesAgree given names origins (scope :: rest)) {o : Origin} {b : String × Machine.Local}
    (hb : given o b) : ScopesAgree given (addName b.1 names) (addName (b.1, o) origins) ((b :: scope) :: rest) := by
  obtain ⟨hn, ho⟩ := ha
  rw [hn]
  cases ho with
  | cons hscope hrest => exact ⟨rfl, .cons (.cons ⟨rfl, hb⟩ hscope) hrest⟩

theorem flatten (ha : ScopesAgree given names origins scopes) :
    List.Forall₂ (fun o b => o.1 = b.1 ∧ given o.2 b) origins.flatten scopes.flatten := by
  obtain ⟨-, ho⟩ := ha
  induction ho with
  | nil => exact .nil
  | cons hs _ ih => exact List.rel_append hs ih

/-- A variable has its origin at its own place among the visible ones. -/
theorem origin {i : Nat} {b : String × Machine.Local} (ha : ScopesAgree given names origins scopes)
    (hb : scopes.flatten[i]? = some b) : ∃ o, origins.flatten[i]? = some (b.1, o) ∧ given o b := by
  obtain ⟨hlen, hget⟩ := List.forall₂_iff_get.mp ha.flatten
  obtain ⟨hi, rfl⟩ := List.getElem?_eq_some_iff.mp hb
  have hi' : i < origins.flatten.length := hlen ▸ hi
  obtain ⟨hn, hg⟩ := hget i hi' hi
  refine ⟨_, ?_, hg⟩
  rw [List.getElem?_eq_getElem hi']
  exact congrArg some (Prod.ext hn rfl)

/-- Every name stands for the same in both. -/
theorem standsAlike {c : Point} {s : Symbols} (ha : ScopesAgree given c.frame.names c.origins s.scopes) (name : String) :
    StandsAlike given c s name := by
  have hnames : c.frame.scopes.flatten.map Prod.fst = s.scopes.flatten.map Prod.fst := by
    have := congrArg List.flatten ha.names_eq
    simpa [Eval.Frame.names, List.map_flatten] using this
  have hvalue : lookupIn c.frame.scopes name =
      c.frame.scopes.flatten[(s.scopes.flatten.map Prod.fst).idxOf name]?.map Prod.snd := by
    rw [lookupIn, Symbols.findSome?_lookup, lookup_eq_getElem?, hnames]
  have hslot : s.lookup? name = s.scopes.flatten[(s.scopes.flatten.map Prod.fst).idxOf name]?.map Prod.snd := by
    rw [Symbols.lookup?_eq, Symbols.visible, lookup_eq_getElem?]
    rfl
  by_cases hm : name ∈ s.scopes.flatten.map Prod.fst
  · right
    have hm' : name ∈ c.frame.scopes.flatten.map Prod.fst := hnames ▸ hm
    obtain ⟨x, hx⟩ := getElem?_of_mem name hm'
    obtain ⟨l, hl⟩ := getElem?_of_mem name hm
    obtain ⟨o, ho, hg⟩ := ha.origin hl
    have hset : ∀ y, (setVar name y c.frame.scopes).map List.flatten =
        some (c.frame.scopes.flatten.set ((s.scopes.flatten.map Prod.fst).idxOf name) (name, y)) := by
      intro y
      rw [setVar_flatten name y hm', hnames]
    rw [hnames] at hx
    rw [hx] at hvalue
    rw [hl] at hslot
    exact ⟨_, x, o, l, hx, ho, hvalue, hset, hslot, hg⟩
  · left
    have hout : (s.scopes.flatten.map Prod.fst).length ≤ (s.scopes.flatten.map Prod.fst).idxOf name :=
      Nat.le_of_eq (List.idxOf_of_notMem hm).symm
    have hout' : c.frame.scopes.flatten.length ≤ (s.scopes.flatten.map Prod.fst).idxOf name := by
      rwa [← hnames, List.length_map, hnames] at hout
    rw [List.length_map] at hout
    rw [hvalue, hslot, List.getElem?_eq_none hout, List.getElem?_eq_none hout']
    exact ⟨rfl, rfl⟩

end ScopesAgree

end

section
variable {h : Lower.Host} {f : FunDecl} {start s s' : Lower.State} {eh : Eval.Host} {fr fr' : Eval.Frame} {st st' : Store}
  {origins : List (List (String × Origin))} {place : Place} {code : Machine.Code}

/-- A declaration makes a variable and is given a slot for it. -/
private theorem ScopesAgree.decl {d : Source.VarDecl}
    (ha : ScopesAgree (GivenOut h f start) fr.names origins s.symbols.scopes)
    (hl : Lowered h f.body start place (.stmt (.decl d)) s ∨ Lowered h f.body start place (.decl d) s)
    (hr : Eval.runDecl eh d fr st = .ok ((), fr') st') (hc : Lower.declCode h d s = .ok (code, s')) :
    ScopesAgree (GivenOut h f start) fr'.names (addName (d.name, .place place) origins) s'.symbols.scopes := by
  obtain ⟨x, rfl⟩ := Eval.runDecl_eq_ok hr
  obtain ⟨l, hs⟩ := (Lower.lowersDecl hc).scopes_eq
  have hg : GivenOut h f start (.place place) (d.name, l) := ⟨d, s, code, s', hl, hc, rfl, hs⟩
  rw [Eval.names_declare, hs]
  exact ha.declare hg

private theorem originsAfter_eq {stmt : Stmt} (hd : stmt.isDecl = false) :
    Eval.originsAfter stmt place origins = origins := by
  cases stmt with
  | decl => cases hd
  | _ => rfl

/-- A statement changes what can be seen in evaluation as in lowering. -/
private theorem ScopesAgree.stmt {stmt : Stmt} (ha : ScopesAgree (GivenOut h f start) fr.names origins s.symbols.scopes)
    (hl : Lowered h f.body start place (.stmt stmt) s) (hr : Eval.runStmt eh stmt fr st = .ok ((), fr') st')
    (hc : Lower.stmtCode h stmt s = .ok (code, s')) :
    ScopesAgree (GivenOut h f start) fr'.names (Eval.originsAfter stmt place origins) s'.symbols.scopes := by
  cases hd : stmt.isDecl with
  | true =>
    cases stmt with
    | decl d =>
      rw [Eval.runStmt] at hr
      rw [Lower.stmtCode] at hc
      exact ha.decl (.inl hl) hr hc
    | _ => cases hd
  | false =>
    rw [(Eval.runStmt_names stmt hr).2 hd, originsAfter_eq hd, (Lower.lowersStmt stmt hc).scopes_eq hd]
    exact ha

private theorem inScope_names {body : List Stmt} (hr : Eval.inScope (Eval.runAll eh body) fr st = .ok ((), fr') st') :
    fr'.names = fr.names := by
  obtain ⟨fr₁, hb, rfl⟩ := Eval.inScope_eq_ok.mp hr
  simpa using Eval.runAll_names body hb

/-- Whatever is visited has been lowered, and the variables agree. -/
private theorem visited_lowered {start' c : Point} {part : Part} (hs : NoDeclInSteps f.body)
    (hb : ∃ c s', Lower.blockCode h f.body start = .ok (c, s'))
    (h₀ : ScopesAgree (GivenOut h f start) start'.frame.names start'.origins start.symbols.scopes)
    (hv : Visits eh f.body start' place part c) :
    ∃ s, Lowered h f.body start place part s ∧
      ScopesAgree (GivenOut h f start) c.frame.names c.origins s.symbols.scopes := by
  induction hv with
  | start => exact ⟨start, .start, h₀⟩
  | item _ ih =>
    obtain ⟨s, hl, ha⟩ := ih
    exact ⟨s, .item hl, ha⟩
  | next _ hr _ ih =>
    obtain ⟨s, hl, ha⟩ := ih
    obtain ⟨c, s', hc⟩ := hl.item.accepts hb
    exact ⟨s', .next hl hc, ha.stmt hl.item hr hc⟩
  | yes _ he ih =>
    obtain ⟨s, hl, ha⟩ := ih
    obtain ⟨c, s', hc⟩ := hl.accepts hb
    obtain ⟨cc, n, y, s₁, z, s₂, hcc, -, -, -, -⟩ := Lower.ifElse_eq_ok hc
    rw [Eval.evalBool_eq_ok he]
    exact ⟨_, .yes hl hcc, ha.enter⟩
  | no _ he ih =>
    obtain ⟨s, hl, ha⟩ := ih
    obtain ⟨c, s', hc⟩ := hl.accepts hb
    obtain ⟨cc, n, y, s₁, z, s₂, hcc, hy, -, -, -⟩ := Lower.ifElse_eq_ok hc
    rw [Eval.evalBool_eq_ok he]
    refine ⟨_, .no hl hcc hy, ?_⟩
    have hexit : s₁.symbols.exit.scopes = s.symbols.scopes := (Lower.lowersBlock _ hy).grows.scopes_exit
    rw [Symbols.scopes_enter, hexit]
    exact ha.enter
  | whileLoop _ ih =>
    obtain ⟨s, hl, ha⟩ := ih
    exact ⟨s, .whileLoop hl, ha⟩
  | forInit _ ih =>
    obtain ⟨s, hl, ha⟩ := ih
    exact ⟨_, .forInit hl, ha.enter⟩
  | forLoop _ hd ih =>
    obtain ⟨s, hl, ha⟩ := ih
    obtain ⟨c, s', hc⟩ := hl.forInit.accepts hb
    have hdecl := ScopesAgree.decl ha.enter (.inr hl.forInit) hd hc
    exact ⟨s', .forLoop hl hc, hdecl⟩
  | cond _ ih =>
    obtain ⟨s, hl, ha⟩ := ih
    exact ⟨_, .cond hl, ha⟩
  | body _ he ih =>
    obtain ⟨s, hl, ha⟩ := ih
    obtain ⟨cc, n, hcc⟩ := hl.cond.accepts hb
    rw [Eval.evalBool_eq_ok he]
    exact ⟨_, .body hl hcc, ha.enter⟩
  | step _ he hbody _ ih =>
    obtain ⟨s, hl, ha⟩ := ih
    obtain ⟨cc, n, hcc⟩ := hl.cond.accepts hb
    obtain ⟨x, s', hx⟩ := (hl.body hcc).accepts hb
    rw [Eval.evalBool_eq_ok he] at hbody
    refine ⟨_, .step hl hcc hx, ?_⟩
    have hexit : s'.symbols.exit.scopes = s.symbols.scopes := (Lower.lowersBlock _ hx).grows.scopes_exit
    rw [hexit, inScope_names hbody]
    exact ha
  | @again _ _ step _ _ _ _ _ _ _ _ _ hv he hbody _ hstep ih =>
    -- The step declares nothing, so the next round begins with the names that this one began with.
    obtain ⟨s, hl, ha⟩ := ih
    rw [Eval.evalBool_eq_ok he] at hbody
    refine ⟨s, hl.rounds _, ?_⟩
    cases step with
    | none =>
      cases hstep
      rw [inScope_names hbody]
      exact ha
    | some u =>
      have hall := hv.everyStep hs
      simp only [Part.everyStep, Option.all_some, Bool.and_eq_true, Bool.not_eq_true'] at hall
      have hd : u.isDecl = false := hall.1.1
      rw [(Eval.runStmt_names u hstep).2 hd, inScope_names hbody, Eval.stepOrigins, originsAfter_eq hd]
      exact ha

/-- Parameters are made in the order in which they get their slots. -/
private theorem params_agree {given : Origin → String × Machine.Local → Prop} {names seen : List String}
    {types : List Machine.Ty} {args : List Value} {sy sy' : Symbols} {i : Nat}
    (hg : ∀ j b, (f.params.map Prod.fst)[j]? = some b.1 → b.2.slot = j + 1 → given (.param j) b)
    (hd : Lower.declareParams f seen (names.zip types) sy = .ok sy') (ht : types.length = names.length)
    (hargs : args.length = names.length) (hi : sy.size = i + 1) (hn : (f.params.map Prod.fst).drop i = names)
    (ha : ScopesAgree given fr.names origins sy.scopes) :
    ScopesAgree given ((names.zip args).foldl (fun fr p => fr.declare p.1 p.2) fr).names
      ((names.zipIdx i).foldl (fun os x => addName (x.1, .param x.2) os) origins) sy'.scopes := by
  induction names generalizing types args sy i fr origins seen with
  | nil =>
    cases hd
    exact ha
  | cons n names ih =>
    obtain ⟨t, types, rfl⟩ := List.exists_cons_of_length_eq_add_one ht
    obtain ⟨x, args, rfl⟩ := List.exists_cons_of_length_eq_add_one hargs
    have hat : (f.params.map Prod.fst)[i]? = some n := by
      rw [← List.head?_drop, hn]
      rfl
    have hrest : (f.params.map Prod.fst).drop (i + 1) = names := by
      rw [← List.tail_drop, hn]
      rfl
    simp only [List.zip_cons_cons, Lower.declareParams] at hd
    split at hd
    · cases hd
    split at hd
    · cases hd
    rename_i l sy₁ hdecl
    obtain ⟨-, rfl, rfl⟩ := Symbols.declare_eq_ok hdecl
    refine ih hd (by simpa using ht) (by simpa using hargs) (congrArg (· + 1) hi) hrest ?_
    rw [Eval.names_declare]
    exact ha.declare (hg i (n, ⟨n, sy.size, t⟩) hat hi)

end

/-- An activation begins with the variables with which the body of its function was lowered. -/
private theorem opening_agrees {env : Lower.Env} {f : FunDecl} {sig : Machine.Signature} {s₀ : Symbols}
    {args : List Value} (st : Store) (hsig : Lower.signatureOf env f = .ok sig)
    (hs : Lower.initialSymbols env f sig = .ok s₀) (hargs : args.length = f.params.length) :
    ScopesAgree (GivenOut ⟨env, f.name, sig⟩ f ⟨0, s₀.enter⟩) (Point.opening f args st).frame.names
      (Point.opening f args st).origins s₀.enter.scopes := by
  obtain ⟨l, hd⟩ := Lower.initialSymbols_eq_ok hs
  obtain ⟨types, htypes, -, hparams, -, -⟩ := Lower.signatureOf_eq_ok hsig
  have hlen := htypes.length_eq
  have hdrop : sig.params.drop (sig.params.length - f.params.length) = types := by
    rw [hparams]
    split <;> simp [hlen]
  rw [hdrop] at hd
  have hempty : ScopesAgree (GivenOut ⟨env, f.name, sig⟩ f ⟨0, s₀.enter⟩) (⟨[[]], false, .null⟩ : Eval.Frame).names [[]]
      (⟨[], [], [l]⟩ : Symbols).scopes := ⟨rfl, .cons .nil .nil⟩
  exact (params_agree (fun j b hb hslot => ⟨hb, hslot⟩) hd (by simp [hlen]) (by simp [hargs]) rfl rfl hempty).enter

/-- Whatever an activation visits was lowered in one state, and there the same names can be seen, each standing for
the same variable, unless the step of a loop declares one. -/
theorem scoping_agrees {o : Lower.Options} {program : Source.Program} {p : Machine.Program}
    (hc : Lower.compile o program = .ok p) {f : FunDecl} (hf : f ∈ program.functions) (hs : NoDeclInSteps f.body) :
    ∃ env sig s₀, Lower.environment o program = .ok env ∧ Lower.signatureIn env f = .ok sig ∧
      Lower.initialSymbols env f sig = .ok s₀ ∧
      ∀ rounds left args st, args.length = f.params.length → ∀ place part c,
        Visits ⟨program, f.name, Eval.call program rounds left, rounds⟩ f.body (.opening f args st) place part c →
        ∃ s, Lowered ⟨env, f.name, sig⟩ f.body ⟨0, s₀.enter⟩ place part s ∧
          (∀ s', Lowered ⟨env, f.name, sig⟩ f.body ⟨0, s₀.enter⟩ place part s' → s' = s) ∧
          (c.frame.names = s.symbols.scopes.map fun scope => scope.map Prod.fst) ∧
          ∀ name, StandsAlike (GivenOut ⟨env, f.name, sig⟩ f ⟨0, s₀.enter⟩) c s.symbols name := by
  obtain ⟨env, henv, hc⟩ := Lower.compile_eq_ok hc
  obtain ⟨hall, -⟩ := (List.forall₂_and_left _ _).mp (hc.methods.imp fun f m h => And.intro (Exists.intro m h) trivial)
  obtain ⟨m, sig, hsig, hlook, hi⟩ := hall f hf
  obtain ⟨code, symbols, full, hbody, -, -⟩ := hi.lowered
  obtain ⟨s₀, b, s₁, hs₀, hblock, -, -⟩ := Lower.bodyCode_eq_ok hbody
  have hin : Lower.signatureIn env f = .ok sig := by rw [Lower.signatureIn, hlook]
  refine ⟨env, sig, s₀, henv, hin, hs₀, fun rounds left args st hargs place part c hv => ?_⟩
  obtain ⟨s, hl, ha⟩ := visited_lowered hs ⟨b, s₁, hblock⟩ (opening_agrees st hsig hs₀ hargs) hv
  exact ⟨s, hl, fun s' hl' => (hl'.unique hl (.refl part)).2, ha.names_eq, ha.standsAlike⟩

/-- Prints its parameter in a loop, ahead of a variable of the same name. -/
private def shade : Source.Program :=
  let number (n : Int) : Source.Expr := .const ⟨.int, .unknown⟩ (.int n)
  let i : Source.Expr := .var ⟨.int, .unknown⟩ "i"
  ⟨[.fn ⟨.unknown, "shade", [("x", .int)], .void,
    [.forDo .unknown ⟨.unknown, .int, "i", some (number 0)⟩ (.binary ⟨.bool, .unknown⟩ .lt i (number 2))
      (.assign .unknown (.var ⟨.int, .unknown⟩ "i") (.binary ⟨.int, .unknown⟩ .add i (number 1)))
      [.print .unknown (.var ⟨.int, .unknown⟩ "x"), .decl ⟨.unknown, .int, "x", some i⟩]], false⟩]⟩

/-- In the second round as well it is the parameter that is printed. -/
theorem shade_scoped : ∃ p f h s₀ c s, Lower.compile (.standard "Q") shade = .ok p ∧ shade.functions = [f] ∧
    NoDeclInSteps f.body ∧
    Visits ⟨shade, f.name, Eval.call shade 5 0, 5⟩ f.body (.opening f [.int 7] Store.empty) [.item 0, .body, .item 0]
      (.stmt (.print .unknown (.var ⟨.int, .unknown⟩ "x"))) c ∧
    c.origins = [[], [("i", .place [.init, .item 0])], [], [("x", .param 0)]] ∧
    Lowered h f.body ⟨0, s₀⟩ [.item 0, .body, .item 0] (.stmt (.print .unknown (.var ⟨.int, .unknown⟩ "x"))) s ∧
    (c.frame.names = s.symbols.scopes.map fun scope => scope.map Prod.fst) ∧
    StandsAlike (GivenOut h f ⟨0, s₀⟩) c s.symbols "x" := by
  have hv : ∃ f c, shade.functions = [f] ∧ f.params.length = 1 ∧ NoDeclInSteps f.body ∧
      Visits ⟨shade, f.name, Eval.call shade 5 0, 5⟩ f.body (.opening f [.int 7] Store.empty) [.item 0, .body, .item 0]
        (.stmt (.print .unknown (.var ⟨.int, .unknown⟩ "x"))) c ∧
      c.origins = [[], [("i", .place [.init, .item 0])], [], [("x", .param 0)]] :=
    ⟨_, _, rfl, rfl, rfl, .item (.body (.again (.forLoop (.item .start) rfl) rfl rfl rfl rfl) rfl), rfl⟩
  obtain ⟨f, c, hf, hparams, hs, hv, ho⟩ := hv
  obtain ⟨p, hc⟩ : ∃ p, Lower.compile (.standard "Q") shade = .ok p := Partial.exists_eq_ok (by decide +kernel)
  have hmem : f ∈ shade.functions := by
    rw [hf]
    exact List.mem_singleton.mpr rfl
  obtain ⟨env, sig, s₀, -, -, -, hall⟩ := scoping_agrees hc hmem hs
  obtain ⟨s, hl, -, hnames, hstands⟩ := hall 5 0 [.int 7] Store.empty hparams.symm _ _ c hv
  exact ⟨p, f, _, _, c, s, hc, hf, hs, hv, ho, hl, hnames, hstands "x"⟩

/-- Prints a variable in a loop whose step declares another of the same name. -/
private def spill : Source.Program :=
  let number (n : Int) : Source.Expr := .const ⟨.int, .unknown⟩ (.int n)
  let i : Source.Expr := .var ⟨.int, .unknown⟩ "i"
  ⟨[.fn ⟨.unknown, "main", [], .void,
    [.decl ⟨.unknown, .int, "x", some (number 1)⟩,
     .forDo .unknown ⟨.unknown, .int, "i", some (number 0)⟩ (.binary ⟨.bool, .unknown⟩ .lt i (number 3))
      (.decl ⟨.unknown, .int, "x", some (number 5)⟩)
      [.print .unknown (.var ⟨.int, .unknown⟩ "x"),
       .assign .unknown (.var ⟨.int, .unknown⟩ "i") (.binary ⟨.int, .unknown⟩ .add i (number 1))]], true⟩]⟩

/-- In the second round evaluation prints the variable of the step; the code has the slot of the one outside. -/
theorem spill_not_scoped : ∃ p f env sig s₀ c s, Lower.compile (.standard "Q") spill = .ok p ∧ spill.functions = [f] ∧
    Lower.environment (.standard "Q") spill = .ok env ∧ Lower.signatureIn env f = .ok sig ∧
    Lower.initialSymbols env f sig = .ok s₀ ∧
    Visits ⟨spill, "main", Eval.call spill 5 0, 5⟩ f.body (.opening f [] Store.empty) [.item 0, .body, .item 1]
      (.stmt (.print .unknown (.var ⟨.int, .unknown⟩ "x"))) c ∧
    Lowered ⟨env, "main", sig⟩ f.body ⟨0, s₀.enter⟩ [.item 0, .body, .item 1]
      (.stmt (.print .unknown (.var ⟨.int, .unknown⟩ "x"))) s ∧
    c.frame.names = [[], ["x", "i"], ["x"], []] ∧
    (s.symbols.scopes.map fun scope => scope.map Prod.fst) = [[], ["i"], ["x"], []] ∧
    c.origins.flatten.lookup "x" = some (.place [.step, .item 1]) ∧ s.symbols.lookup? "x" = some ⟨"x", 1, .int⟩ := by
  obtain ⟨p, hc⟩ : ∃ p, Lower.compile (.standard "Q") spill = .ok p := Partial.exists_eq_ok (by decide +kernel)
  exact ⟨p, _, _, _, _, _, _, hc, rfl, rfl, rfl, rfl,
    .item (.body (.again (.forLoop (.item (.next .start rfl rfl)) rfl) rfl rfl rfl rfl) rfl),
    .item (.body (.forLoop (.item (.next .start rfl)) rfl (k := 0)) rfl), rfl, rfl, rfl, rfl⟩

end WhileStack
