import WhileStack.Proofs.Lower.Calls
import WhileStack.Proofs.Lower.Environment

/-! Compiling gives all methods of a program or none. The functions have to stand beside each other and each has to be
lowered; then every call finds its method, and otherwise every function that fails is reported. -/
namespace WhileStack
open Source (FunDecl Aliases)
open Machine (Instr Method)
open Lower

/-- A method has the name and the types of its function. The entry point takes the argument vector before its
parameters. -/
structure MethodOf (aliases : Aliases) (f : FunDecl) (m : Method) : Prop where
  name_eq : m.name = f.name
  entry_eq : m.isEntry = f.isEntry
  static_eq : m.sig.isStatic = f.isEntry
  sig_name : m.sig.name = f.name
  params : ∃ types, List.Forall₂ (fun q t => valueLayout aliases q.2 = .ok t) f.params types ∧
    m.sig.params = (if f.isEntry then [.array .string] else []) ++ types
  result : layout aliases f.ret = .ok m.sig.ret

/-- Every call goes to a method with a receiver, of the signature that is called. -/
def CallsLinked (c : Machine.Program) : Prop :=
  ∀ m ∈ c.methods, ∀ sig, .call sig ∈ m.code →
    sig.isStatic = false ∧ ∃ callee ∈ c.methods, c.method? sig.name = some callee ∧ callee.sig = sig ∧ callee.isEntry = false

section
variable {o : Options} {p : Source.Program} {c : Machine.Program} {env : Env}

private theorem forall₂_exists {α β : Type} {R : α → β → Prop} {xs : List α} :
    (∃ ys, List.Forall₂ R xs ys) ↔ ∀ x ∈ xs, ∃ y, R x y := by
  induction xs with
  | nil => simp
  | cons x xs ih => simp [List.forall₂_cons_left_iff, ← ih]

private theorem compile_isOk : (∃ c, compile o p = .ok c) ↔
    ∃ env, environment o p = .ok env ∧ ∀ f ∈ p.functions, ∃ m, emit env f = .ok m := by
  simp only [compile_eq_ok_iff, ← forall₂_exists]
  constructor
  · rintro ⟨c, env, he, hm, -⟩
    exact ⟨env, he, c.methods, hm⟩
  · rintro ⟨env, he, ms, hm⟩
    exact ⟨⟨o.name, o.version, ms⟩, env, he, hm, rfl, rfl⟩

private theorem Lower.Implements.methodOf {f : FunDecl} {m : Method} {sig : Machine.Signature}
    (hsig : signatureOf env f = .ok sig) (hi : Implements env f sig m) : MethodOf env.aliases f m := by
  obtain ⟨types, htypes, hret, hparams, hstatic, hname⟩ := signatureOf_eq_ok hsig
  obtain rfl := hi.sig_eq
  exact ⟨hi.name_eq, hi.entry_eq, hstatic, hname, ⟨types, htypes, hparams⟩, hret⟩

private theorem Lower.Compiled.linked (hc : Compiled env p c) : CallsLinked c := by
  intro m hm sig hcall
  obtain ⟨f, -, sig', hsig', -, hi⟩ := Machine.exists_of_forall₂ (List.Forall₂.flip hc.methods) hm
  obtain ⟨code, symbols, full, hbody, hfull, hcode⟩ := hi.lowered
  rw [hcode] at hcall
  obtain ⟨index, i, hmem, hj⟩ := Machine.mem_of_resolve hfull hcall
  obtain rfl : i = .call sig := by cases i <;> first | exact hj.symm | cases hj
  obtain ⟨hstatic, name, hname⟩ := (bodyCode_calls hsig' hbody).named sig hmem
  obtain ⟨g, callee, -, hfind, hg, hcallee⟩ := hc.method hname
  obtain ⟨-, -, -, -, hentry, -⟩ := signatureOf_eq_ok hg
  refine ⟨hstatic, callee, List.mem_of_find?_eq_some hfind, hfind, hcallee.sig_eq, ?_⟩
  rw [hcallee.entry_eq, ← hentry, hstatic]

end

/-- A program is compiled as a whole or not at all. -/
theorem compiles_all_or_none (o : Options) (p : Source.Program) :
    ((∃ env, environment o p = .ok env) ↔ Consistent p) ∧
    ((∃ c, compile o p = .ok c) ↔
      ∃ env, environment o p = .ok env ∧ ∀ f ∈ p.functions, ∃ m, emit env f = .ok m) ∧
    (∀ c, compile o p = .ok c → List.Forall₂ (MethodOf p.aliases) p.functions c.methods ∧ CallsLinked c) ∧
    (∀ env es, environment o p = .ok env → compile o p = .error es →
      es = (p.functions.filterMap (failure env)).map .inFunction ∧
        ∀ f e, failure env f = some e → e.function = f.name ∧ e.loc = f.loc ∧ lowerFunction env f = .error e.cause) ∧
    ∀ es, environment o p = .error es → compile o p = .error es := by
  refine ⟨environment_isOk, compile_isOk, fun c h => ?_,
    fun env es he h => ⟨compile_eq_error he h, fun f e => failure_eq_some⟩, fun es h => ?_⟩
  · obtain ⟨env, -, hc⟩ := compile_eq_ok h
    refine ⟨hc.methods.imp ?_, hc.linked⟩
    rintro f m ⟨sig, hsig, -, hi⟩
    rw [← hc.aliases_eq]
    exact hi.methodOf hsig
  · simp only [compile, h, bind, Except.bind]

/-- An entry point that calls a function. -/
private def calling : Source.Program :=
  let number (n : Int) : Source.Expr := .const ⟨.int, .unknown⟩ (.int n)
  ⟨[.fn ⟨.unknown, "main", [], .void, [.print .unknown (.call ⟨.int, .unknown⟩ "next" [number 1])], true⟩,
    .type ⟨.unknown, "count", .int⟩,
    .fn ⟨.unknown, "next", [("n", .named "count")], .int,
      [.ret .unknown (some (.binary ⟨.int, .unknown⟩ .add (.var ⟨.int, .unknown⟩ "n") (number 1)))], false⟩]⟩

/-- The first and the last function use names that stand for nothing. -/
private def spoilt : Source.Program :=
  let reads (name : String) (loc : Source.Loc) : Source.Stmt := .print loc (.var ⟨.int, loc⟩ name)
  ⟨[.fn ⟨⟨1, 0⟩, "first", [], .void, [reads "x" ⟨2, 4⟩], false⟩,
    .fn ⟨⟨4, 0⟩, "main", [], .void, [], true⟩,
    .fn ⟨⟨6, 0⟩, "last", [], .void, [reads "y" ⟨7, 4⟩], false⟩]⟩

theorem calling_linked :
    (∃ c, compile (.standard "Q") calling = .ok c ∧ (c.methods.flatMap fun m => m.code.toList.filter Lower.callsOrMakes) =
        [.new (.object "Q"), .call ⟨"next", [.int], .int, false⟩] ∧
      List.Forall₂ (MethodOf calling.aliases) calling.functions c.methods ∧ CallsLinked c) ∧
    ∃ env es, environment (.standard "Q") spoilt = .ok env ∧ compile (.standard "Q") spoilt = .error es ∧
      es = (spoilt.functions.filterMap (failure env)).map .inFunction ∧
      es = [.inFunction ⟨"first", ⟨1, 0⟩, .unboundVariable "x" ⟨2, 4⟩⟩,
        .inFunction ⟨"last", ⟨6, 0⟩, .unboundVariable "y" ⟨7, 4⟩⟩] := by
  constructor
  · obtain ⟨c, hc, hcalls⟩ : ∃ c, compile (.standard "Q") calling = .ok c ∧
        (c.methods.flatMap fun m => m.code.toList.filter Lower.callsOrMakes) =
          [.new (.object "Q"), .call ⟨"next", [.int], .int, false⟩] := Partial.eq_ok_of_toOption_map (by decide +kernel)
    exact ⟨c, hc, hcalls, (compiles_all_or_none _ calling).2.2.1 c hc⟩
  · have he : ∃ env, environment (.standard "Q") spoilt = .ok env :=
      (compiles_all_or_none _ spoilt).1.mpr ⟨by decide, by decide, by simp [spoilt, Source.Program.functions],
        fun f hf => ⟨.void, by simp [spoilt, Source.Program.functions] at hf; rcases hf with rfl | rfl | rfl <;> rfl⟩⟩
    obtain ⟨env, he⟩ := he
    have hc : compile (.standard "Q") spoilt = .error [.inFunction ⟨"first", ⟨1, 0⟩, .unboundVariable "x" ⟨2, 4⟩⟩,
        .inFunction ⟨"last", ⟨6, 0⟩, .unboundVariable "y" ⟨7, 4⟩⟩] := by rfl
    exact ⟨env, _, he, hc, ((compiles_all_or_none _ spoilt).2.2.2.1 env _ he hc).1, rfl⟩

end WhileStack
