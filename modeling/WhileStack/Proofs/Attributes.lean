import WhileStack.Proofs.Lower.Denotes
import WhileStack.Proofs.Lower.Parts
import WhileStack.Proofs.Lower.Slots

/-! Type attributes of accepted programs. Every expression carries the type that it denotes, but for the root of what an
assignment writes to: lowering looks at the variable, the list or the record there, and not at the attribute. -/
namespace WhileStack
open Source (Expr Stmt VarDecl Target Names)
open Lower

namespace Lower
variable {p : Source.Program} {names : Names}

/-! ### What can be seen where a statement is lowered -/

section
variable {h : Host} {s s' : State} {c : Machine.Code}

theorem Sees.enter {symbols : Symbols} (hv : Sees p names (h.view symbols)) : Sees p names (h.view symbols.enter) :=
  ⟨hv.aliases_eq, hv.callee, hv.slots⟩

private theorem Sees.of_visible {symbols symbols' : Symbols} (hv : Sees p names (h.view symbols))
    (hs : symbols'.visible = symbols.visible) : Sees p names (h.view symbols') :=
  ⟨hv.aliases_eq, hv.callee, by simpa only [hs] using hv.slots⟩

theorem Sees.leave {symbols symbols' : Symbols} (hv : Sees p names (h.view symbols)) (hg : symbols.enter.Grows symbols') :
    Sees p names (h.view symbols'.exit) := by
  obtain ⟨hi, ho, -⟩ := hg.exit_eq
  apply hv.of_visible
  rw [Symbols.visible, hi, ho, Symbols.visible]

theorem Sees.declare {d : VarDecl} (hv : Sees p names (h.view s.symbols)) (hd : LowersDecl h s d c s') :
    Sees p ((d.name, d.ty) :: names) (h.view s'.symbols) := by
  refine ⟨hv.aliases_eq, hv.callee, ?_⟩
  rw [← hv.aliases_eq]
  cases hd with
  | init _ ht _ _ hl | unset _ ht hl =>
    obtain ⟨-, rfl, rfl⟩ := Symbols.declare_eq_ok hl
    exact .cons ⟨rfl, ht⟩ (hv.aliases_eq ▸ hv.slots)

theorem Sees.after {stmt : Stmt} (hv : Sees p names (h.view s.symbols)) (hs : LowersStmt h s stmt c s') :
    Sees p (stmt.after names) (h.view s'.symbols) := by
  cases hs with
  | decl hd => exact hv.declare hd
  | assign | print | leave | ret | effect => exact hv
  | ifElse _ hy hz => exact (hv.leave hy.grows).leave hz.grows
  | whileDo _ hb => exact hv.leave hb.grows
  | forDo hi _ hb hu => exact hv.leave ((hi.grows.trans hb.grows.exit).trans hu.grows)

/-- A statement is lowered somewhere in view of some variables. -/
private def LoweredIn (p : Source.Program) (h : Host) (names : Names) (stmt : Stmt) : Prop :=
  ∃ s c s', stmtCode h stmt s = .ok (c, s') ∧ Sees p names (h.view s.symbols)

mutual

private theorem holds_lowered {h : Host} : ∀ {names names' : Names} {stmt x : Stmt} {s s' : State} {c : Machine.Code},
    Stmt.Holds names stmt names' x → stmtCode h stmt s = .ok (c, s') → Sees p names (h.view s.symbols) →
    LoweredIn p h names' x
  | _, _, _, _, s, s', c, .self, hs, hv => ⟨s, c, s', hs, hv⟩
  | _, _, _, _, s, s', c, .yes hb, hs, hv => by
    obtain ⟨cc, n, y, s₁, z, s₂, -, hy, -, -, -⟩ := ifElse_eq_ok hs
    exact inBlock_lowered hb hy hv.enter
  | _, _, _, _, s, s', c, .no hb, hs, hv => by
    obtain ⟨cc, n, y, s₁, z, s₂, -, hy, hz, -, -⟩ := ifElse_eq_ok hs
    exact inBlock_lowered hb hz (hv.leave (lowersBlock _ hy).grows).enter
  | _, _, _, _, s, s', c, .whileBody hb, hs, hv => by
    obtain ⟨cc, n, b, s₁, u, -, hbody, -, -⟩ := loopCode_eq_ok (by simpa only [stmtCode] using hs)
    obtain ⟨s₂, hbody, -⟩ := inScope_eq_ok.mp hbody
    exact inBlock_lowered hb hbody hv.enter
  | _, _, _, _, s, s', c, .init, hs, hv => by
    obtain ⟨i, s₁, l, s₂, hi, -, -, -⟩ := forDo_eq_ok hs
    exact ⟨_, i, s₁, by simpa only [stmtCode] using hi, hv.enter⟩
  | _, _, _, _, s, s', c, .forBody hb, hs, hv => by
    obtain ⟨i, s₁, l, s₂, hi, hl, -, -⟩ := forDo_eq_ok hs
    obtain ⟨cc, n, b, s₃, u, -, hbody, -, -⟩ := loopCode_eq_ok hl
    obtain ⟨s₄, hbody, -⟩ := inScope_eq_ok.mp hbody
    exact inBlock_lowered hb hbody (hv.enter.declare (lowersDecl hi)).enter
  | _, _, _, _, s, s', c, .step hu, hs, hv => by
    obtain ⟨i, s₁, l, s₂, hi, hl, -, -⟩ := forDo_eq_ok hs
    obtain ⟨cc, n, b, s₃, u, -, hbody, hstep, -⟩ := loopCode_eq_ok hl
    obtain ⟨s₄, hb, rfl⟩ := inScope_eq_ok.mp hbody
    exact holds_lowered hu hstep ((hv.enter.declare (lowersDecl hi)).leave (lowersBlock _ hb).grows)

private theorem inBlock_lowered {h : Host} : ∀ {names names' : Names} {block : List Stmt} {x : Stmt} {s s' : State}
    {c : Machine.Code}, Stmt.InBlock names block names' x → blockCode h block s = .ok (c, s') →
    Sees p names (h.view s.symbols) → LoweredIn p h names' x
  | _, _, _, _, s, s', c, .head hh, hs, hv => by
    obtain ⟨c₁, s₁, c₂, hstmt, -, -⟩ := blockCode_cons_eq_ok hs
    exact holds_lowered hh hstmt hv
  | _, _, _, _, s, s', c, .tail ht, hs, hv => by
    obtain ⟨c₁, s₁, c₂, hstmt, hrest, -⟩ := blockCode_cons_eq_ok hs
    exact inBlock_lowered ht hrest (hv.after (lowersStmt _ hstmt))

end

end

/-! ### What a lowered statement says about its expressions -/

/-- The types that a statement denotes fit each other: that of a first value its variable, that of an assigned value
what is written to, that of a result its function, those of conditions. -/
def Fits (p : Source.Program) (ret : Source.Ty) (names : Names) : Stmt → Prop
  | .decl d => ∃ t, valueLayout p.aliases d.ty = .ok t ∧ ∀ e ∈ d.init, Denotes p names e t
  | .assign _ target value => ∃ t, Denotes p names target.toExpr t ∧ Denotes p names value t
  | .print _ value => ∃ t, t ≠ .void ∧ Denotes p names value t
  | .ret _ none => layout p.aliases ret = .ok .void
  | .ret _ (some value) => ∃ t, layout p.aliases ret = .ok t ∧ Denotes p names value t
  | .expr _ value => ∃ t, Denotes p names value t
  | .ifElse _ cond _ _ | .whileDo _ cond _ => Denotes p names cond .boolean
  | .forDo _ init cond _ _ => Denotes p ((init.name, init.ty) :: names) cond .boolean

/-- An expression denotes a type, and this is the layout of its attribute. -/
def Attributed (p : Source.Program) (names : Names) (e : Expr) : Prop :=
  ∃ t, Denotes p names e t ∧ layout p.aliases e.ty = .ok t

theorem LowersTarget.layout_eq {v : View} {n n' : Nat} {e : Expr} {c : Machine.Code} {t : Machine.Ty}
    (h : LowersTarget v n e c t n') : layout v.env.aliases e.ty = .ok t := by
  cases h with
  | value _ he _ => exact he.layout_eq
  | var _ ha | index _ _ ha | field _ _ ha => exact ha

theorem Sees.attributed {v : View} {e : Expr} (hv : Sees p names v) (h : Runs (targetCode v e) ∨ Runs (exprCode v e)) :
    Attributed p names e := by
  rcases h with ⟨n, ⟨⟨c, t⟩, n'⟩, h⟩ | ⟨n, ⟨⟨c, t⟩, n'⟩, h⟩
  · have hl := lowersTarget e h
    exact ⟨t, hl.denotes hv, hv.aliases_eq ▸ hl.layout_eq⟩
  · have hl := lowersExpr e h
    exact ⟨t, hl.denotes hv, hv.aliases_eq ▸ hl.layout_eq⟩

theorem LowersStmt.fits {h : Host} {s s' : State} {stmt : Stmt} {c : Machine.Code} {ret : Source.Ty}
    (hv : Sees p names (h.view s.symbols)) (hret : layout p.aliases ret = .ok h.sig.ret) (hs : LowersStmt h s stmt c s') :
    Fits p ret names stmt := by
  cases hs with
  | decl hd =>
    cases hd with
    | init hi ht he _ _ =>
      refine ⟨_, hv.aliases_eq ▸ ht, fun e hm => ?_⟩
      cases hi.symm.trans hm
      exact he.denotes hv
    | unset hi ht _ =>
      refine ⟨_, hv.aliases_eq ▸ ht, fun e hm => ?_⟩
      cases hi.symm.trans hm
  | assign ha =>
    cases ha with
    | var he _ hl =>
      obtain ⟨ty, hd, ht⟩ := hv.found hl
      exact ⟨_, .var hd ht, he.denotes hv⟩
    | index he _ hs hp => exact ⟨_, .index (hs.denotes hv) (hp.denotes hv), he.denotes hv⟩
    | field he _ hs hf => exact ⟨_, .field (hs.denotes hv) (Machine.Ty.lookup_of_findField hf), he.denotes hv⟩
  | print he ht =>
    refine ⟨_, ?_, he.denotes hv⟩
    rintro rfl
    cases ht
  | leave hvoid => exact hret.trans (congrArg _ hvoid)
  | ret he _ => exact ⟨_, hret, he.denotes hv⟩
  | effect he => exact ⟨_, he.denotes hv⟩
  | ifElse hc _ _ => exact hc.denotes hv
  | whileDo hc _ => exact hc.denotes hv
  | forDo hi hc _ _ => exact hc.denotes (hv.enter.declare hi)

private theorem assign_runs {v : View} {loc : Source.Loc} {target : Target} {value x : Expr}
    (h : Runs (assignCode v loc target value)) (hx : x ∈ value :: target.children) :
    Runs (targetCode v x) ∨ Runs (exprCode v x) := by
  obtain ⟨hvalue, ⟨c, t⟩, h⟩ := h.bind
  rcases List.mem_cons.mp hx with rfl | hx
  · exact .inr hvalue.needValue
  · cases target with
    | var => cases hx
    | index a source position =>
      obtain ⟨hs, s, h⟩ := h.bind
      rcases List.mem_pair.mp hx with rfl | rfl
      · exact .inl hs
      · obtain ⟨-, elem, h⟩ := h.bind
        exact .inr h.bind.1.needTyped
    | field a source name =>
      obtain rfl := List.mem_singleton.mp hx
      exact .inl h.bind.1

/-- The expressions of a statement that is lowered are lowered in view of what they can see. -/
private theorem exprs_run {h : Host} {s s' : State} {stmt : Stmt} {c : Machine.Code} {scope : Names} {root : Expr}
    (hv : Sees p names (h.view s.symbols)) (hs : stmtCode h stmt s = .ok (c, s')) (hx : (scope, root) ∈ stmt.exprs names) :
    ∃ v, Sees p scope v ∧ (Runs (targetCode v root) ∨ Runs (exprCode v root)) := by
  cases stmt with
  | decl d =>
    obtain ⟨e, he, hr⟩ := List.mem_map.mp hx
    cases hr
    simp only [stmtCode, declCode, Partial.bind_eq_ok, withView_eq_ok, liftLayout_eq_ok] at hs
    obtain ⟨t, _, ⟨_, ⟨-, rfl⟩, rfl⟩, hs⟩ := hs
    simp only [Option.mem_toList.mp he, Partial.bind_eq_ok, withView_eq_ok] at hs
    obtain ⟨c, _, ⟨n, hc, -⟩, -⟩ := hs
    have hr : Runs (needTyped (.initializer d.name) t root.loc (exprCode (h.view s.symbols) root)) := ⟨_, _, hc⟩
    exact ⟨_, hv, .inr hr.needTyped⟩
  | assign loc target value =>
    obtain ⟨x, hx, hr⟩ := List.mem_map.mp hx
    cases hr
    rw [stmtCode, withView_eq_ok] at hs
    obtain ⟨n, hs, -⟩ := hs
    exact ⟨_, hv, assign_runs ⟨_, _, hs⟩ hx⟩
  | print loc value =>
    cases List.mem_singleton.mp hx
    rw [stmtCode, withView_eq_ok] at hs
    obtain ⟨n, hs, -⟩ := hs
    have hr : Runs (printCode (h.view s.symbols) loc root) := ⟨_, _, hs⟩
    exact ⟨_, hv, .inr hr.bind.1⟩
  | ret loc value =>
    obtain ⟨e, he, hr⟩ := List.mem_map.mp hx
    cases hr
    obtain rfl := Option.mem_toList.mp he
    rw [stmtCode, withView_eq_ok] at hs
    obtain ⟨n, hs, -⟩ := hs
    simp only [returnCode] at hs
    split at hs
    · cases hs
    · have hr : Runs (needTyped .result h.sig.ret root.loc (exprCode (h.view s.symbols) root)) :=
        (show Runs (_ >>= _) from ⟨_, _, hs⟩).bind.1
      exact ⟨_, hv, .inr hr.needTyped⟩
  | expr loc value =>
    cases List.mem_singleton.mp hx
    rw [stmtCode, withView_eq_ok] at hs
    obtain ⟨n, hs, -⟩ := hs
    have hr : Runs (effectCode (h.view s.symbols) root) := ⟨_, _, hs⟩
    exact ⟨_, hv, .inr hr.bind.1⟩
  | ifElse loc cond yes no =>
    cases List.mem_singleton.mp hx
    obtain ⟨cc, n, y, s₁, z, s₂, hc, -⟩ := ifElse_eq_ok hs
    exact ⟨_, hv, .inr ⟨_, _, hc⟩⟩
  | whileDo loc cond body =>
    cases List.mem_singleton.mp hx
    obtain ⟨cc, n, b, s₁, u, hc, -⟩ := loopCode_eq_ok (by simpa only [stmtCode] using hs)
    exact ⟨_, hv, .inr ⟨_, _, hc⟩⟩
  | forDo loc init cond step body =>
    cases List.mem_singleton.mp hx
    obtain ⟨i, s₁, l, s₂, hi, hl, -, -⟩ := forDo_eq_ok hs
    obtain ⟨cc, n, b, s₃, u, hc, -⟩ := loopCode_eq_ok hl
    exact ⟨_, hv.enter.declare (lowersDecl hi), .inr ⟨_, _, hc⟩⟩

end Lower

/-- In an accepted program the types that expressions denote fit each other, and every expression carries the type that
it denotes. The root of what an assignment writes to is left out: see `Stmt.exprs`. -/
theorem accepted_attributes {o : Options} {p : Source.Program} {c : Machine.Program} (h : compile o p = .ok c)
    {f : Source.FunDecl} (hf : f ∈ p.functions) {names : Names} {stmt : Stmt}
    (hs : Stmt.InBlock f.params.reverse f.body names stmt) :
    Fits p f.ret names stmt ∧ ∀ scope root, (scope, root) ∈ stmt.exprs names → ∀ e, root.Contains e →
      Attributed p scope e := by
  obtain ⟨env, -, hc⟩ := compile_eq_ok h
  obtain ⟨m, -, sig, hsig, -, hm⟩ := Machine.exists_of_forall₂ hc.methods hf
  obtain ⟨code, symbols, full, hbody, -, -⟩ := hm.lowered
  obtain ⟨s₀, b, s, hs₀, hblock, -, -⟩ := bodyCode_eq_ok hbody
  obtain ⟨-, -, hret, -⟩ := signatureOf_eq_ok hsig
  obtain ⟨-, news, -, hvisible, hparams⟩ := initialSymbols_slots hsig hs₀
  have hslots : List.Forall₂ (fun x b => x.1 = b.1 ∧ valueLayout p.aliases x.2 = .ok b.2.ty)
      f.params.reverse s₀.visible := by
    rw [hvisible, List.forall₂_reverse_iff, List.forall₂_map_right_iff]
    exact hparams.imp fun x l hx => ⟨hx.1.symm, hc.aliases_eq ▸ hx.2⟩
  have hcallee (g : String) (sig : Machine.Signature) (hl : env.signatures.lookup g = some sig) :
      ∃ g', p.function? g = some g' ∧ signatureOf env g' = .ok sig := by
    obtain ⟨g', -, hg, -, hsig, -⟩ := hc.method hl
    exact ⟨g', hg, hsig⟩
  have hsees : Sees p f.params.reverse ((⟨env, f.name, sig⟩ : Host).view s₀.enter) := ⟨hc.aliases_eq, hcallee, hslots⟩
  obtain ⟨s₁, c₁, s₁', hstmt, hv⟩ := inBlock_lowered hs hblock hsees
  refine ⟨(lowersStmt _ hstmt).fits hv (hc.aliases_eq ▸ hret), fun scope root hroot e he => ?_⟩
  obtain ⟨v, hv', hr⟩ := exprs_run hv hstmt hroot
  exact hv'.attributed (Runs.contained hr he)

/-- Doubles a field of each record of a list. -/
private def doubled : Source.Program :=
  let point : Source.Ty := .named "point"
  let number (n : Int) : Expr := .const ⟨.int, .unknown⟩ (.int n)
  let i : Expr := .var ⟨.int, .unknown⟩ "i"
  let points : Expr := .var ⟨.list point, .unknown⟩ "points"
  let x : Expr := .field ⟨.int, .unknown⟩ (.index ⟨point, .unknown⟩ points i) "x"
  ⟨[.type ⟨.unknown, "point", .record [("x", .int)]⟩,
    .fn ⟨.unknown, "main", [], .void,
      [.decl ⟨.unknown, .list point, "points",
        some (.list ⟨.list point, .unknown⟩ [.record ⟨point, .unknown⟩ [("x", number 3)]])⟩,
       .forDo .unknown ⟨.unknown, .int, "i", none⟩
        (.binary ⟨.bool, .unknown⟩ .lt i (.unary ⟨.int, .unknown⟩ .length points))
        (.assign .unknown (.var ⟨.int, .unknown⟩ "i") (.binary ⟨.int, .unknown⟩ .add i (number 1)))
        [.assign .unknown (.field ⟨.int, .unknown⟩ (.index ⟨point, .unknown⟩ points i) "x")
          (.binary ⟨.int, .unknown⟩ .mul (number 2) x)]], true⟩]⟩

/-- The list that is written into is seen behind the loop variable. -/
theorem doubled_attributes :
    let point : Source.Ty := .named "point"
    let i : Expr := .var ⟨.int, .unknown⟩ "i"
    let points : Expr := .var ⟨.list point, .unknown⟩ "points"
    (∃ c, compile (.standard "Q") doubled = .ok c) ∧
      Attributed doubled [("i", .int), ("points", .list point)] points ∧
      Attributed doubled [("i", .int), ("points", .list point)] (.index ⟨point, .unknown⟩ points i) := by
  obtain ⟨c, hc⟩ : ∃ c, compile (.standard "Q") doubled = .ok c := Partial.exists_eq_ok (by decide +kernel)
  have ha := (accepted_attributes hc (.head _) (.tail (.head (.forBody (.head .self))))).2 _ _ (.tail _ (.head _))
  exact ⟨⟨c, hc⟩, ha _ (.child .root (.head _)), ha _ .root⟩

/-- The attribute of the variable that is written to says another type than its declaration. -/
private def misattributed : Source.Program :=
  ⟨[.fn ⟨.unknown, "main", [], .void,
    [.decl ⟨.unknown, .int, "x", some (.const ⟨.int, .unknown⟩ (.int 1))⟩,
     .assign .unknown (.var ⟨.string, .unknown⟩ "x") (.const ⟨.int, .unknown⟩ (.int 2))], true⟩]⟩

theorem misattributed_accepted :
    let target : Target := .var ⟨.string, .unknown⟩ "x"
    (∃ c, compile (.standard "Q") misattributed = .ok c) ∧
      (∃ f ∈ misattributed.functions, ∃ value,
        Stmt.InBlock f.params.reverse f.body [("x", .int)] (.assign .unknown target value)) ∧
      Denotes misattributed [("x", .int)] target.toExpr .int ∧ ¬Attributed misattributed [("x", .int)] target.toExpr := by
  have hd : Denotes misattributed [("x", .int)] (.var ⟨.string, .unknown⟩ "x") .int := .var rfl rfl
  refine ⟨Partial.exists_eq_ok (by decide +kernel), ⟨_, .head _, _, .tail (.head .self)⟩, hd, ?_⟩
  rintro ⟨t, ht, hl⟩
  cases ht.unique hd
  cases hl

end WhileStack
