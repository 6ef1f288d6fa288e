import WhileStack.Proofs.Lower.Compiled
import WhileStack.Proofs.Lower.Slots

/-! The slots of compiled methods: each variable has one of its own, and code reads and writes them by their types. -/
namespace WhileStack
open Source (FunDecl Stmt Aliases)
open Machine (Code Instr Local Method Signature)
open Lower

namespace Lower
variable {env : Env} {f : FunDecl} {sig : Signature} {s : Symbols}

/-- The slots of a function and how its code uses them. -/
theorem bodyCode_slots {code : Code} (hsig : signatureOf env f = .ok sig) (h : bodyCode env f sig = .ok (code, s)) :
    s.Numbered ∧ Uses s.locals f.isEntry code ∧
      ∃ news, s.locals = ⟨(implicitSlot env f).1, 0, (implicitSlot env f).2⟩ :: news ∧
        List.Forall₂ (SlotOf env.aliases) (f.params ++ (Stmt.declaredIn f.body).map fun d => (d.name, d.ty)) news := by
  obtain ⟨-, -, -, -, hst, -⟩ := signatureOf_eq_ok hsig
  obtain ⟨s₀, b, s₁, hs₀, hblock, rfl, rfl⟩ := bodyCode_eq_ok h
  obtain ⟨hn, params, hparams, -, hps⟩ := initialSymbols_slots hsig hs₀
  have hb := lowersBlock f.body hblock
  obtain ⟨decls, hdecls, hds⟩ := hb.locals
  have huses := (hb.uses (initialSymbols_ready hsig hs₀)).append (b := closing f sig)
    (.plain (by unfold closing; split <;> (try split) <;> rfl))
  rw [hst] at huses
  rw [Symbols.locals_exit]
  refine ⟨(hb.numbered hn.enter).exit, huses, params ++ decls, ?_, List.rel_append hps (List.forall₂_map_left_iff.mpr hds)⟩
  rw [hdecls, Symbols.locals_enter, hparams, List.cons_append]

end Lower

/-- How the slots of a method are given out, and how its code names them. -/
structure SlotsKept (o : Options) (aliases : Aliases) (f : FunDecl) (m : Method) : Prop where
  numbered : ∀ (i : Nat) (l : Local), m.locals[i]? = some l → l.slot = i
  size_eq : m.maxLocals = m.locals.length
  /-- The argument vector or the receiver comes first, then the parameters, then the variables of the body. -/
  order : ∃ first rest, m.locals = first :: rest ∧
    (first.name, first.ty) = (if f.isEntry then ("args", .array .string) else ("this", .object o.name)) ∧
    List.Forall₂ (SlotOf aliases) (f.params ++ (Stmt.declaredIn f.body).map fun d => (d.name, d.ty)) rest
  load : ∀ (slot : Int) ty, .load slot ty ∈ m.code →
    ∃ (n : Nat) (l : Local), slot = n ∧ n < m.maxLocals ∧ m.locals[n]? = some l ∧ ty = l.ty
  store : ∀ (slot : Int) ty, .store slot ty ∈ m.code →
    ∃ (n : Nat) (l : Local), slot = n ∧ 0 < n ∧ n < m.maxLocals ∧ m.locals[n]? = some l ∧ ty = l.ty
  clear : ∀ slot : Int, .clear slot ∈ m.code → ∃ n : Nat, slot = n ∧ 0 < n ∧ n < m.maxLocals
  receiver : ∀ (i : Nat) ty, m.code[i]? = some (.load 0 ty) → m.isEntry = false ∧ Machine.Received m.code i

/-- A method keeps to the slots of its function. -/
theorem Lower.Emitted.slotsKept {o : Options} {env : Env} {f : FunDecl} {m : Method} {sig : Signature}
    {code : Code} {s : Symbols} (hcls : env.cls = o.name) (he : Emitted env f m sig code s) :
    SlotsKept o env.aliases f m := by
  obtain ⟨hn, huses, news, hnews, hs⟩ := bodyCode_slots he.sig_eq he.body
  obtain ⟨index, hfound⟩ := he.found
  have hkeeps (j : Instr) (hj : j ∈ m.code) : Keeps m.locals j := by
    obtain ⟨k, hk⟩ := Array.getElem?_of_mem hj
    obtain ⟨a, i, b, rfl, rfl, -⟩ := hfound k j hk
    rw [he.locals_eq]
    have hi := huses.keeps i (by simp)
    cases i <;> exact hi
  have hmem (l : Local) (hl : l ∈ m.locals) : l.slot < m.maxLocals ∧ m.locals[l.slot]? = some l := by
    obtain ⟨i, hi⟩ := List.getElem?_of_mem hl
    obtain ⟨hlt, -⟩ := List.getElem?_eq_some_iff.mp hi
    rw [hn.slot_eq i l (he.locals_eq ▸ hi), he.maxLocals_eq, ← Symbols.length_locals, ← he.locals_eq]
    exact ⟨hlt, hi⟩
  constructor
  · rw [he.locals_eq]
    exact hn.slot_eq
  · rw [he.maxLocals_eq, he.locals_eq, Symbols.length_locals]
  · refine ⟨_, news, he.locals_eq.trans hnews, ?_, hs⟩
    rw [implicitSlot, Env.receiver, hcls]
    split <;> rfl
  · intro slot ty h
    obtain ⟨l, hl, rfl, rfl⟩ := hkeeps _ h
    exact ⟨l.slot, l, rfl, (hmem l hl).1, (hmem l hl).2, rfl⟩
  · intro slot ty h
    obtain ⟨l, hl, rfl, rfl, hpos⟩ := hkeeps _ h
    exact ⟨l.slot, l, rfl, hpos, (hmem l hl).1, (hmem l hl).2, rfl⟩
  · intro slot h
    obtain ⟨l, hl, rfl, hpos⟩ := hkeeps _ h
    exact ⟨l.slot, rfl, hpos, (hmem l hl).1⟩
  · intro k ty h
    obtain ⟨a, i, b, rfl, hi, hp⟩ := hfound k _ h
    obtain rfl : i = .load 0 ty := by
      cases i <;> first | exact hi.symm | cases hi
    obtain ⟨hst, hcall⟩ := huses.receives a ty b rfl
    exact ⟨by rw [he.entry_eq, hst], hcall.received rfl hp⟩

/-- Every method of a compiled program keeps to its slots. -/
theorem compiled_keeps_slots {o : Options} {p : Source.Program} {c : Machine.Program} (h : compile o p = .ok c) :
    List.Forall₂ (SlotsKept o p.aliases) p.functions c.methods := by
  obtain ⟨env, hcls, haliases, hm⟩ := compile_emits h
  refine hm.imp ?_
  rintro f m ⟨sig, code, symbols, he⟩
  rw [← haliases]
  exact he.slotsKept hcls

/-- A function that calls itself in an argument of its own call, in a loop whose body and step declare variables. -/
private def nested : Source.Program :=
  let number (n : Int) : Source.Expr := .const ⟨.int, .unknown⟩ (.int n)
  let var (name : String) : Source.Expr := .var ⟨.int, .unknown⟩ name
  let again (e : Source.Expr) : Source.Expr := .call ⟨.int, .unknown⟩ "nest" [e]
  ⟨[.fn ⟨.unknown, "main", [], .void, [.print .unknown (again (number 3))], true⟩,
    .fn ⟨.unknown, "nest", [("n", .int)], .int,
      [.forDo .unknown ⟨.unknown, .int, "i", some (var "n")⟩ (.binary ⟨.bool, .unknown⟩ .lt (number 0) (var "i"))
        (.decl ⟨.unknown, .int, "last", none⟩)
        [.decl ⟨.unknown, .int, "n", some (again (again (number 0)))⟩,
         .assign .unknown (.var ⟨.int, .unknown⟩ "i") (var "n")],
       .ret .unknown (some (var "n"))], false⟩]⟩

theorem nested_keeps_slots : ∃ c, compile (.standard "Q") nested = .ok c ∧
    c.methods.map Method.locals = [[⟨"args", 0, .array .string⟩],
      [⟨"this", 0, .object "Q"⟩, ⟨"n", 1, .int⟩, ⟨"i", 2, .int⟩, ⟨"n", 3, .int⟩, ⟨"last", 4, .int⟩]] ∧
    (∃ m ∈ c.methods, m.code[9]? = some (.load 0 (.object "Q")) ∧ m.code[10]? = some (.load 0 (.object "Q"))) ∧
    List.Forall₂ (SlotsKept (.standard "Q") nested.aliases) nested.functions c.methods := by
  have h : (compile (.standard "Q") nested).toOption.map (fun c => (c.methods.map Method.locals,
      c.methods.any fun m => m.code[9]? = some (.load 0 (.object "Q")) ∧ m.code[10]? = some (.load 0 (.object "Q")))) =
      some ([[⟨"args", 0, .array .string⟩],
        [⟨"this", 0, .object "Q"⟩, ⟨"n", 1, .int⟩, ⟨"i", 2, .int⟩, ⟨"n", 3, .int⟩, ⟨"last", 4, .int⟩]], true) := by
    decide +kernel
  obtain ⟨c, hc, hm⟩ := Partial.eq_ok_of_toOption_map h
  obtain ⟨hl, hr⟩ := Prod.mk.inj hm
  exact ⟨c, hc, hl, by simpa using hr, compiled_keeps_slots hc⟩

end WhileStack
