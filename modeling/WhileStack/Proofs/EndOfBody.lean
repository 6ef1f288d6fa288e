import WhileStack.Eval.Run
import WhileStack.Proofs.Eval.Stmt
import WhileStack.Proofs.Lower.Compiled

/-! Running past the last statement of a body. Evaluation goes by the return type as it is written, compiled code by
the type behind its name; the two agree except for names of void. -/
namespace WhileStack
open Source (FunDecl Ty)
open Machine (Instr Method Code)

/-- An activation runs past the last statement of its body without returning. -/
structure Eval.RunsPast (p : Source.Program) (rounds left : Nat) (f : FunDecl) (args : List Value) (st st' : Store) :
    Prop where
  arity : args.length = f.params.length
  past : ∃ fr, inScope (runAll ⟨p, f.name, call p rounds left, rounds⟩ f.body) (openFrame f args) st = .ok ((), fr) st' ∧
    fr.returned = false

section
variable {p : Source.Program} {rounds left : Nat} {f : FunDecl} {args : List Value} {st st' : Store}

theorem Eval.RunsPast.call_eq (h : RunsPast p rounds left f args st st') : call p rounds (left + 1) f args st =
    if f.ret = .void then .ok .null st' else .error (.fault ⟨.missingReturn, f.name, .nothing⟩) st' := by
  obtain ⟨ha, fr, hr, hret⟩ := h
  rw [call_apply ha, hr]
  dsimp only
  rw [hret, if_neg Bool.false_ne_true]

/-- A body that returns on every path is not run past. -/
theorem Eval.RunsPast.allReturn_eq (h : RunsPast p rounds left f args st st') :
    Source.Stmt.allReturn f.body = false := by
  obtain ⟨-, fr, hr, hret⟩ := h
  obtain ⟨fr₁, hb, rfl⟩ := inScope_eq_ok.mp hr
  by_contra hall
  have : fr₁.returned = true := returned_of_allReturn f.body (by simpa using hall) hb
  rw [show fr₁.returned = false from hret] at this
  cases this

end

namespace Lower

/-- The instruction behind a body is the last of the resolved code. -/
private theorem resolve_last {c full : Code} {i : Instr} (h : Machine.resolve (c ++ [i]) = .ok full)
    (hm : i.isMark = false) (hd : i.dest? = none) : full.toArray.back? = some i := by
  obtain ⟨index, hl, hp⟩ := Machine.resolve_placed h
  obtain ⟨hi, -⟩ := (Machine.placed_cons hm).mp (Machine.placed_append.mp hp).2
  rw [Machine.realCount_snoc hm] at hl
  rw [Nat.zero_add, Machine.retarget, hd] at hi
  rw [Array.back?, List.size_toArray, hl]
  exact hi

private theorem Implements.back_eq {env : Env} {f : FunDecl} {sig : Machine.Signature} {m : Method}
    (h : Implements env f sig m) (hr : Source.Stmt.allReturn f.body = false) :
    m.code.back? = some (if sig.ret.isVoid then .ret .void else .unreachable) := by
  obtain ⟨code, symbols, full, hb, hres, hm⟩ := h.lowered
  obtain ⟨s₀, b, s, -, -, rfl, -⟩ := bodyCode_eq_ok hb
  rw [hm]
  unfold closing at hres
  rw [hr, if_neg (by simp)] at hres
  split at hres
  · rename_i hv
    rw [if_pos hv]
    exact resolve_last hres rfl rfl
  · rename_i hv
    rw [if_neg hv]
    exact resolve_last hres rfl rfl

end Lower

/-- An activation that runs past the end of its body ends normally if the code of the function ends in a void return,
and in a fault if it ends in an unreachable instruction, unless the return type is a name of void. -/
theorem past_end_agrees {o : Lower.Options} {program : Source.Program} {p : Machine.Program}
    (hc : Lower.compile o program = .ok p) :
    List.Forall₂ (fun f m => m.name = f.name ∧ (¬ program.IsVoidName f.ret →
      ∀ rounds left args st st', Eval.RunsPast program rounds left f args st st' →
        ((∃ v st₁, Eval.call program rounds (left + 1) f args st = .ok v st₁) ↔ m.code.back? = some (.ret .void)) ∧
        ((∃ st₁, Eval.call program rounds (left + 1) f args st =
          .error (.fault ⟨.missingReturn, f.name, .nothing⟩) st₁) ↔ m.code.back? = some .unreachable)))
      program.functions p.methods := by
  obtain ⟨env, -, hc⟩ := Lower.compile_eq_ok hc
  refine hc.methods.imp ?_
  rintro f m ⟨sig, hsig, -, hi⟩
  refine ⟨hi.name_eq, fun hn rounds left args st st' hp => ?_⟩
  obtain ⟨-, -, hret, -, -, -⟩ := Lower.signatureOf_eq_ok hsig
  rw [hc.aliases_eq] at hret
  have hvoid := Lower.isVoid_of_layout hret hn
  rw [hp.call_eq, hi.back_eq hp.allReturn_eq]
  by_cases hf : f.ret = .void
  · rw [if_pos hf, if_pos (hvoid.mpr hf)]
    simp
  · rw [if_neg hf, if_neg (fun h => hf (hvoid.mp h))]
    simp

/-- A function that runs past its end unless its argument is negative. -/
private def half : Source.Program :=
  let number (n : Int) : Source.Expr := .const ⟨.int, .unknown⟩ (.int n)
  ⟨[.fn ⟨.unknown, "half", [("n", .int)], .int,
    [.ifElse .unknown (.binary ⟨.bool, .unknown⟩ .lt (.var ⟨.int, .unknown⟩ "n") (number 0))
      [.ret .unknown (some (number 0))] []], false⟩]⟩

/-- A number that is not negative takes it there. -/
theorem half_past_end : ∃ p f m, Lower.compile (.standard "Q") half = .ok p ∧ half.functions = [f] ∧ p.methods = [m] ∧
    ¬ half.IsVoidName f.ret ∧ Eval.RunsPast half 1 0 f [.int 1] Store.empty Store.empty ∧
    m.code.back? = some .unreachable ∧
    ∃ st, Eval.call half 1 1 f [.int 1] Store.empty = .error (.fault ⟨.missingReturn, "half", .nothing⟩) st := by
  have h : ∃ p f m, Lower.compile (.standard "Q") half = .ok p ∧ half.functions = [f] ∧ p.methods = [m] ∧ f.ret = .int ∧
      f.name = "half" ∧ Eval.RunsPast half 1 0 f [.int 1] Store.empty Store.empty ∧ m.code.back? = some .unreachable :=
    ⟨_, _, _, rfl, rfl, rfl, rfl, rfl, ⟨rfl, _, rfl, rfl⟩, rfl⟩
  obtain ⟨p, f, m, hc, hf, hm, hret, hname, hp, hback⟩ := h
  have hn : ¬ half.IsVoidName f.ret := by
    rintro ⟨n, hn, -⟩
    rw [hret] at hn
    cases hn
  have hall := past_end_agrees hc
  rw [hf, hm] at hall
  cases hall with
  | cons h _ =>
    refine ⟨p, f, m, hc, hf, hm, hn, hp, hback, ?_⟩
    rw [← hname]
    exact (h.2 hn 1 0 _ _ _ hp).2.mpr hback

/-- Prints a number and returns nothing, under a second name of void. -/
private def silent : Source.Program :=
  ⟨[.type ⟨.unknown, "nothing", .void⟩,
    .fn ⟨.unknown, "main", [], .named "nothing", [.print .unknown (.const ⟨.int, .unknown⟩ (.int 1))], true⟩]⟩

/-- For a name of void the two differ: the code ends in a void return, but evaluation ends in a fault. -/
theorem silent_past_end : ∃ p f m st, Lower.compile (.standard "Q") silent = .ok p ∧ silent.functions = [f] ∧
    p.methods = [m] ∧ Eval.RunsPast silent 1 0 f [] Store.empty st ∧ m.code.back? = some (.ret .void) ∧
    ¬ (∃ v st₁, Eval.call silent 1 1 f [] Store.empty = .ok v st₁) ∧
    Eval.call silent 1 1 f [] Store.empty = .error (.fault ⟨.missingReturn, "main", .nothing⟩) st := by
  refine ⟨_, _, _, _, rfl, rfl, rfl, ⟨rfl, _, rfl, rfl⟩, rfl, ?_, rfl⟩
  rintro ⟨v, st, h⟩
  cases h

end WhileStack
