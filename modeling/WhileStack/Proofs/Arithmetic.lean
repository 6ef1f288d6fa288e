import Mathlib.Data.Int.ModEq
import WhileStack.Eval.Run
import WhileStack.Lower.Expr
import WhileStack.Proofs.Exec
import WhileStack.Proofs.Machine.Step
import WhileStack.Proofs.Tree.Machine

/-! Arithmetic on 32-bit integers. The evaluator and the machine end an operation alike: with the exact result, reduced
modulo 2 ^ 32, or with the fault of a division by 0. -/
namespace WhileStack.Arithmetic
open Eval (View evalExpr)
open Machine (Arith)
open OnTrees (calculate)
open Source (Attr BinOp Expr)

/-- Both executors end an operation on `a` and `b` in `r`: with a value, or with a fault of a kind. The evaluator finds
the operands from left to right, the machine has them on its stack; neither changes the store by the operation. -/
structure Ends (o : Arith) (a b : Int32) (r : Except FaultKind Int32) : Prop where
  evaluated (v : View) (attr : Attr) (op : BinOp) (lhs rhs : Expr) (st st₁ st₂ : Store) :
    Lower.arithOf op = some o → evalExpr v lhs st = .ok (.int a) st₁ → evalExpr v rhs st₁ = .ok (.int b) st₂ →
    evalExpr v (.binary attr op lhs rhs) st = match r with
      | .ok n => .ok (.int n) st₂
      | .error kind => .error (.fault ⟨kind, v.function, .nothing⟩) st₂
  executed (p : Machine.Program) (s : Machine.State) (rest : List Value) :
    s.frame.instrAt? s.frame.pc = some (.arith o) → s.frame.stack = .int b :: .int a :: rest →
    Machine.step p s = match r with
      | .ok n => .running ⟨s.store, s.steps + 1, ⟨s.frame.method, s.frame.locals, .int n :: rest, s.frame.pc + 1⟩, s.callers⟩
      | .error kind => .stopped s.store (s.steps + 1) (.fault ⟨kind, s.frame.method.name, .nothing⟩)

/-- Both executors turn `a` into `n` by a unary minus. -/
structure Negates (a n : Int32) : Prop where
  evaluated (v : View) (attr : Attr) (e : Expr) (st st₁ : Store) : evalExpr v e st = .ok (.int a) st₁ →
    evalExpr v (.unary attr .neg e) st = .ok (.int n) st₁
  executed (p : Machine.Program) (s : Machine.State) (rest : List Value) :
    s.frame.instrAt? s.frame.pc = some .neg → s.frame.stack = .int a :: rest →
    Machine.step p s =
      .running ⟨s.store, s.steps + 1, ⟨s.frame.method, s.frame.locals, .int n :: rest, s.frame.pc + 1⟩, s.callers⟩

section
variable {o : Arith} {op : BinOp} {a b n : Int32} {v : View} {attr : Attr} {lhs rhs e : Expr} {st st₁ st₂ : Store}

private theorem intOperation_apply (ho : Lower.arithOf op = some o) (v : View) (a b : Int32) (st : Store) :
    Eval.intOperation v op a b st = match calculate v.function o a b with
      | .ok n => .ok (.int n) st
      | .error f => .error (.fault f) st := by
  have hd : Eval.intOperation v op a b = Eval.liftFault (calculate v.function o a b) >>= fun n => pure (.int n) := by
    cases op <;> cases ho <;> rfl
  rw [hd, Exec.bind_apply]
  cases calculate v.function o a b with
  | ok n => rfl
  | error f => rfl

private theorem needInt_apply (h : evalExpr v e st = .ok (.int n) st₁) :
    Eval.needInt v e (evalExpr v e) st = .ok n st₁ := by
  rw [Eval.needInt, Exec.bind_apply, h]
  rfl

private theorem binary_apply (ho : Lower.arithOf op = some o) (hl : evalExpr v lhs st = .ok (.int a) st₁)
    (hr : evalExpr v rhs st₁ = .ok (.int b) st₂) :
    evalExpr v (.binary attr op lhs rhs) st = match calculate v.function o a b with
      | .ok n => .ok (.int n) st₂
      | .error f => .error (.fault f) st₂ := by
  -- Only the operators without a case of their own in `binaryValue` have an instruction.
  have hb : evalExpr v (.binary attr op lhs rhs) = Eval.needInt v lhs (evalExpr v lhs) >>= fun a =>
      Eval.needInt v rhs (evalExpr v rhs) >>= fun b => Eval.intOperation v op a b := by
    rw [evalExpr]
    cases op <;> cases ho <;> rfl
  rw [hb, Exec.bind_apply, needInt_apply hl]
  dsimp only
  rw [Exec.bind_apply, needInt_apply hr]
  exact intOperation_apply ho v a b st₂

private theorem perform_apply (f : Machine.Frame) (o : Arith) (a b : Int32) (st : Store) :
    Machine.perform f (.arith o) [.int a, .int b] st = match calculate f.method.name o a b with
      | .ok n => .ok (f.push (.int n)) st
      | .error e => .error (.fault e) st := by
  have hd : Machine.perform f (.arith o) [.int a, .int b] =
      Machine.arithmetic f o a b >>= fun n => pure (f.push (.int n)) := rfl
  rw [hd, Exec.bind_apply, OnTrees.arithmetic_apply]
  cases calculate f.method.name o a b with
  | ok n => rfl
  | error e => rfl

private theorem arith_step {p : Machine.Program} {s : Machine.State} {rest : List Value}
    (hi : s.frame.instrAt? s.frame.pc = some (.arith o)) (hs : s.frame.stack = .int b :: .int a :: rest) :
    Machine.step p s = match calculate s.frame.method.name o a b with
      | .ok n => .running ⟨s.store, s.steps + 1, ⟨s.frame.method, s.frame.locals, .int n :: rest, s.frame.pc + 1⟩, s.callers⟩
      | .error f => .stopped s.store (s.steps + 1) (.fault f) := by
  obtain ⟨store, steps, ⟨method, locals, stack, pc⟩, callers⟩ := s
  dsimp only at hi hs ⊢
  subst hs
  have hp := perform_apply ⟨method, locals, rest, pc + 1⟩ o a b store
  rw [Machine.step_performs hi (by simp [Machine.Instr.pops]) rfl]
  simp only [Machine.Frame.past, Machine.Instr.pops, List.take_succ_cons, List.take_zero, List.drop_succ_cons,
    List.drop_zero, List.reverse_cons, List.reverse_nil, List.nil_append, List.cons_append, hp]
  cases calculate method.name o a b with
  | ok n => rfl
  | error f => rfl

/-- An operation that is known in every function. -/
private theorem ends_of_calculate {r : Except FaultKind Int32}
    (h : ∀ function, calculate function o a b = r.mapError fun kind => ⟨kind, function, .nothing⟩) : Ends o a b r where
  evaluated v attr op lhs rhs st st₁ st₂ ho hl hr := by
    rw [binary_apply ho hl hr, h]
    cases r with
    | ok n => rfl
    | error kind => rfl
  executed p s rest hi hs := by
    rw [arith_step hi hs, h]
    cases r with
    | ok n => rfl
    | error kind => rfl

private theorem negates (a : Int32) : Negates a (-a) where
  evaluated v attr e st st₁ h := by
    rw [evalExpr, Eval.unaryValue, Exec.bind_apply, needInt_apply h]
    rfl
  executed p s rest hi hs := by
    obtain ⟨store, steps, ⟨method, locals, stack, pc⟩, callers⟩ := s
    dsimp only at hi hs ⊢
    subst hs
    rw [Machine.step_performs hi (by simp [Machine.Instr.pops]) rfl]
    simp [Machine.Frame.past, Machine.Instr.pops, Machine.perform, Machine.needInt, Machine.intOf?, Machine.Frame.push]

end

section
variable {a b : Int32}

private theorem divide_of_ne (h : b ≠ 0) : Ends .div a b (.ok (a / b)) := by
  apply ends_of_calculate
  intro function
  exact if_neg h

private theorem remainder_of_ne (h : b ≠ 0) : Ends .rem a b (.ok (a % b)) := by
  apply ends_of_calculate
  intro function
  exact if_neg h

private theorem toInt_ne_zero (h : b ≠ 0) : b.toInt ≠ 0 := by
  intro hb
  exact h (Int32.toInt_inj.mp hb)

private theorem remainder_small (h : b ≠ 0) : (a % b).toInt.natAbs < b.toInt.natAbs := by
  rw [Int32.toInt_mod, Int.natAbs_tmod]
  exact Nat.mod_lt _ (Int.natAbs_pos.mpr (toInt_ne_zero h))

private theorem remainder_sign : a % b = 0 ∨ (a % b).toInt.sign = a.toInt.sign := by
  have hs := Int.sign_tmod a.toInt b.toInt
  split at hs
  · rename_i hd
    refine .inl (Int32.toInt_inj.mp ?_)
    rw [Int32.toInt_mod]
    exact Int.sign_eq_zero_iff_zero.mp hs
  · rw [Int32.toInt_mod]
    exact .inr hs

/-- Reducing the quotient changes a multiple of the divisor by a multiple of 2 ^ 32. -/
private theorem division_congruent : a.toInt ≡ b.toInt * (a / b).toInt + (a % b).toInt [ZMOD 2 ^ 32] := by
  have hq : (a / b).toInt ≡ a.toInt.tdiv b.toInt [ZMOD 2 ^ 32] := by
    rw [Int32.toInt_div]
    exact Int.bmod_emod
  have hr : a.toInt = b.toInt * a.toInt.tdiv b.toInt + a.toInt.tmod b.toInt := (Int.mul_tdiv_add_tmod _ _).symm
  calc a.toInt ≡ b.toInt * a.toInt.tdiv b.toInt + a.toInt.tmod b.toInt [ZMOD 2 ^ 32] := by rw [← hr]
    _ ≡ b.toInt * (a / b).toInt + (a % b).toInt [ZMOD 2 ^ 32] := by
      rw [Int32.toInt_mod]
      exact (hq.symm.mul_left _).add_right _

end

/-- Sums, differences, products and negations are exact up to multiples of 2 ^ 32; so are quotients, which are truncated,
and the remainder is what truncation leaves. Division by 0 is the only fault. -/
theorem exact_modulo (a b : Int32) :
    (∃ n, Ends .add a b (.ok n) ∧ n.toInt = (a.toInt + b.toInt).bmod (2 ^ 32)) ∧
    (∃ n, Ends .sub a b (.ok n) ∧ n.toInt = (a.toInt - b.toInt).bmod (2 ^ 32)) ∧
    (∃ n, Ends .mul a b (.ok n) ∧ n.toInt = (a.toInt * b.toInt).bmod (2 ^ 32)) ∧
    (∃ n, Negates a n ∧ n.toInt = (-a.toInt).bmod (2 ^ 32)) ∧
    (b = 0 → Ends .div a b (.error .divisionByZero) ∧ Ends .rem a b (.error .divisionByZero)) ∧
    (b ≠ 0 → ∃ q r, Ends .div a b (.ok q) ∧ Ends .rem a b (.ok r) ∧
      q.toInt = (a.toInt.tdiv b.toInt).bmod (2 ^ 32) ∧ (a = Int32.minValue → b = -1 → q = Int32.minValue) ∧
      r.toInt.natAbs < b.toInt.natAbs ∧ (r = 0 ∨ r.toInt.sign = a.toInt.sign) ∧
      a.toInt ≡ b.toInt * q.toInt + r.toInt [ZMOD 2 ^ 32]) := by
  refine ⟨⟨a + b, ends_of_calculate fun _ => rfl, Int32.toInt_add a b⟩,
    ⟨a - b, ends_of_calculate fun _ => rfl, Int32.toInt_sub a b⟩,
    ⟨a * b, ends_of_calculate fun _ => rfl, Int32.toInt_mul a b⟩, ⟨-a, negates a, Int32.toInt_neg a⟩, ?_, ?_⟩
  · intro hb
    subst hb
    exact ⟨ends_of_calculate fun _ => rfl, ends_of_calculate fun _ => rfl⟩
  · intro hb
    refine ⟨a / b, a % b, divide_of_ne hb, remainder_of_ne hb, Int32.toInt_div a b, ?_, remainder_small hb,
      remainder_sign, division_congruent⟩
    intro ha hm
    subst ha hm
    decide

/-- The one quotient that does not fit, as an expression, and a remainder by 0 on the machine. -/
theorem least_quotient_wraps :
    (evalExpr ⟨⟨[]⟩, "f", [], fun _ _ => pure .null⟩ (.binary default .div (.const default (.int (-2147483648)))
      (.const default (.int (-1)))) Store.empty = .ok (.int Int32.minValue) Store.empty) ∧
    Machine.step ⟨"p", ⟨1, 0, 0, [], []⟩, []⟩ ⟨Store.empty, 0,
      ⟨⟨"f", ⟨"f", [], .void, true⟩, false, #[.arith .rem], [], 2, 0⟩, #[], [.int 0, .int 7], 0⟩, []⟩ =
        .stopped Store.empty 1 (.fault ⟨.divisionByZero, "f", .nothing⟩) := by
  obtain ⟨q, r, hq, -, -, hmin, -⟩ := (exact_modulo Int32.minValue (-1)).2.2.2.2.2 (by decide)
  obtain rfl : q = Int32.minValue := hmin rfl rfl
  have hr := ((exact_modulo 7 0).2.2.2.2.1 rfl).2
  constructor
  · apply hq.evaluated
    · rfl
    · rfl
    · rfl
  · apply hr.executed
    · rfl
    · rfl

end WhileStack.Arithmetic
