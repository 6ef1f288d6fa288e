import WhileStack.Proofs.Eval.Blame
import WhileStack.Proofs.Eval.Stmt
import WhileStack.Proofs.Lower.Accepted
import WhileStack.Proofs.Machine.Confined

/-! Statements that return on every path. Evaluation leaves them by a return alone, and no way of control through their
code comes to its end. -/
namespace WhileStack
open Source (FunDecl Stmt)

namespace Eval

section
variable {p : Source.Program} {rounds left : Nat} {f : FunDecl} {args : List Value} {st : Store} {P : String → Prop}

/-- Statements in a scope of their own have returned when they end. -/
theorem returned_of_scope {h : Host} {stmts : List Stmt} {fr fr' : Frame} {st' : Store}
    (ha : Stmt.allReturn stmts = true) (hr : inScope (runAll h stmts) fr st = .ok ((), fr') st') :
    fr'.returned = true := by
  obtain ⟨fr₁, hb, hfr⟩ := inScope_eq_ok.mp hr
  have hret : fr₁.returned = true := returned_of_allReturn stmts ha hb
  rw [hfr]
  exact hret

/-- A call adds nothing to what becomes of such a body. -/
theorem call_of_allReturn (hb : Stmt.allReturn f.body = true) (ha : args.length = f.params.length) :
    call p rounds (left + 1) f args st =
      match inScope (runAll ⟨p, f.name, call p rounds left, rounds⟩ f.body) (openFrame f args) st with
      | .ok (_, fr) st' => .ok fr.result st'
      | .error e st' => .error e st' := by
  rw [call_apply ha]
  cases hr : inScope (runAll ⟨p, f.name, call p rounds left, rounds⟩ f.body) (openFrame f args) st with
  | error e st' => rfl
  | ok r st' => exact if_pos (returned_of_scope hb hr)

/-- A missing return in a call is due to the function itself, or to one of the program; and only to a function that has
ways without a return. -/
theorem blames_call (hp : ∀ g ∈ p.functions, Stmt.allReturn g.body = false → P g.name) (left : Nat) (f : FunDecl)
    (hf : Stmt.allReturn f.body = false → P f.name) (args : List Value) : Blames P (call p rounds left f args) := by
  induction left generalizing f args with
  | zero =>
    rw [call]
    exact .throw rfl
  | succ left ih =>
    intro st e st' name he hname
    by_cases ha : args.length = f.params.length
    · have hbody := (blames_runAll (h := ⟨p, f.name, call p rounds left, rounds⟩)
        (fun g hg args => ih g (hp g hg) args) f.body).inScope (openFrame f args) st
      rw [call_apply ha] at he
      cases hr : inScope (runAll ⟨p, f.name, call p rounds left, rounds⟩ f.body) (openFrame f args) st with
      | error e₁ st₁ =>
        rw [hr] at he
        cases he
        exact hbody _ _ name hr hname
      | ok r st₁ =>
        rw [hr] at he
        dsimp only at he
        split at he
        · cases he
        · rename_i hret
          split at he
          · cases he
          · -- The fault is raised here, so the body has come to its end without a return.
            cases he
            cases hname
            apply hf
            by_contra hall
            exact hret (returned_of_scope (by simpa using hall) hr)
    · rw [call, if_pos ha] at he
      cases he
      cases hname

private theorem blames_zeroParams (aliases : Source.Aliases) (function : String) (params : List (String × Source.Ty)) :
    Blames P (zeroParams aliases function params) := by
  induction params with
  | nil => exact .pure
  | cons b params ih =>
    obtain ⟨n, t⟩ := b
    refine Blames.get.bind fun st => ?_
    split
    · exact .throw rfl
    · exact (Blames.modify _).bind fun _ => ih.bind fun _ => .pure

/-- The same of the run of a program. -/
theorem blames_runEntry (hp : ∀ g ∈ p.functions, Stmt.allReturn g.body = false → P g.name) :
    Blames P (runEntry p rounds) := by
  unfold runEntry
  cases he : p.entry? with
  | none => exact .throw rfl
  | some f =>
    have hf := hp f (List.mem_of_find?_eq_some he)
    refine (blames_zeroParams _ _ _).bind fun args => ?_
    exact (blames_call hp _ f hf args).bind fun _ => .pure

theorem runEntry_of_stop {e : Stop} (h : (run p rounds).stop = some e) :
    ∃ st, runEntry p rounds Store.empty = .error e st := by
  unfold run at h
  cases hx : runEntry p rounds Store.empty with
  | ok a st =>
    rw [hx] at h
    cases h
  | error e' st =>
    rw [hx] at h
    cases h
    exact ⟨st, rfl⟩

end
end Eval

section
open Machine

/-- Where all statements return, so does their evaluation, from every frame from which it comes to an end. A call of a
function with such a body ends just as the body does, with the result that is left there or the failure of a part; and
if functions of its name have such bodies only, a missing return is never put down to it, in calls or runs of the
program. Wherever the code of the statements stands, with labels or resolved, each way of control from its start leads
to an instruction of this code: to none in front of it, and not to the place behind it. -/
theorem returning_statements_closed (stmts : List Stmt) (h : Stmt.allReturn stmts = true) :
    (∀ host fr fr' st st', Eval.inScope (Eval.runAll host stmts) fr st = .ok ((), fr') st' → fr'.returned = true) ∧
    (∀ (p : Source.Program) (f : FunDecl) (rounds : Nat), f.body = stmts →
      (∀ left args st, args.length = f.params.length → Eval.call p rounds (left + 1) f args st =
        match Eval.inScope (Eval.runAll ⟨p, f.name, Eval.call p rounds left, rounds⟩ stmts) (Eval.openFrame f args) st with
        | .ok (_, fr) st' => .ok fr.result st'
        | .error e st' => .error e st') ∧
      ((∀ g ∈ p.functions, g.name = f.name → Stmt.allReturn g.body = true) →
        (∀ g ∈ f :: p.functions, ∀ left args st st' d,
          Eval.call p rounds left g args st ≠ .error (.fault ⟨.missingReturn, f.name, d⟩) st') ∧
        ∀ d, (Eval.run p rounds).stop ≠ some (.fault ⟨.missingReturn, f.name, d⟩))) ∧
    (∀ (host : Lower.Host) (s s' : Lower.State) (c front back : Code), s.symbols.Built →
      Lower.blockCode host stmts s = .ok (c, s') →
      (∀ p q way, (marks (front ++ c ++ back)).Nodup → Lands (front ++ c ++ back) front.length p →
        Travels (Moves (front ++ c ++ back)) p way q → front.length ≤ q ∧ q < front.length + c.length) ∧
      ∀ full way t, resolve (front ++ c ++ back) = .ok full →
        Travels (fun n taken t => Flows full.toArray n taken (t : Nat)) (realCount front) way t →
        realCount front ≤ t ∧ t < realCount front + realCount c) := by
  refine ⟨fun host fr fr' st st' hr => Eval.returned_of_scope h hr, ?_, ?_⟩
  · intro p f rounds hb
    subst hb
    constructor
    · intro left args st ha
      exact Eval.call_of_allReturn h ha
    · intro hnames
      have hp : ∀ g ∈ p.functions, Stmt.allReturn g.body = false → g.name ≠ f.name := by
        intro g hg hfall he
        rw [hnames g hg he] at hfall
        cases hfall
      constructor
      · intro g hg left args st st' d he
        have hself : Stmt.allReturn g.body = false → g.name ≠ f.name := by
          rcases List.mem_cons.mp hg with rfl | hg
          · intro hfall
            rw [h] at hfall
            cases hfall
          · exact hp g hg
        exact Eval.blames_call (P := fun name => name ≠ f.name) hp left g hself args st _ _ _ he rfl rfl
      · intro d hd
        obtain ⟨st, hx⟩ := Eval.runEntry_of_stop hd
        exact Eval.blames_runEntry (P := fun name => name ≠ f.name) hp _ _ _ _ hx rfl rfl
  · intro host s s' c front back hs hc
    have hv := hs.holdsValues
    have hl := Lower.lowersBlock stmts hc
    have hcloses := hl.closes hv h
    have hclosed := (hl.flat hv).labels.closed
    constructor
    · intro p q way hn hp hq
      exact hcloses.confines hclosed hn hp hq
    · intro full way t hr ht
      exact hcloses.confines_resolved hclosed hr ht

/-- The sign of a number, with a return at the end of every way. -/
private def sign : FunDecl :=
  let number (n : Int) : Source.Expr := .const ⟨.int, .unknown⟩ (.int n)
  let less (x y : Source.Expr) : Source.Expr := .binary ⟨.bool, .unknown⟩ .lt x y
  let n : Source.Expr := .var ⟨.int, .unknown⟩ "n"
  ⟨.unknown, "sign", [("n", .int)], .int,
    [.ifElse .unknown (less n (number 0)) [.ret .unknown (some (number (-1)))]
      [.ifElse .unknown (less (number 0) n) [.ret .unknown (some (number 1))] [.ret .unknown (some (number 0))]]], false⟩

/-- It gives its result, a missing return is never put down to it, and its code has no way to the end. -/
theorem sign_closed : Stmt.allReturn sign.body = true ∧
    Eval.call ⟨[.fn sign]⟩ 1 1 sign [.int 5] Store.empty = .ok (.int 1) Store.empty ∧
    (∀ d, (Eval.run ⟨[.fn sign]⟩ 1).stop ≠ some (.fault ⟨.missingReturn, "sign", d⟩)) ∧
    ∃ s s' c full, s.symbols.Built ∧
      Lower.blockCode ⟨⟨"Q", [], [], true⟩, "sign", ⟨"sign", [.int], .int, false⟩⟩ sign.body s = .ok (c, s') ∧
      resolve c = .ok full ∧
      ∀ way t, Travels (fun n taken t => Flows full.toArray n taken (t : Nat)) 0 way t → t < realCount c := by
  have hall : Stmt.allReturn sign.body = true := rfl
  obtain ⟨-, hcall, hcode⟩ := returning_statements_closed sign.body hall
  obtain ⟨hends, hblames⟩ := hcall ⟨[.fn sign]⟩ sign 1 rfl
  obtain ⟨l, symbols, hd⟩ : ∃ l symbols, Lower.Symbols.empty.declare "n" .int = .ok (l, symbols) := ⟨_, _, rfl⟩
  have hs : symbols.Built := .declare .empty hd
  cases hd
  refine ⟨hall, hends 0 [.int 5] Store.empty rfl, (hblames fun g hg _ => ?_).2, ⟨0, _⟩, _, _, _, hs, rfl, rfl, ?_⟩
  · obtain rfl := List.mem_singleton.mp hg
    exact hall
  · intro way t ht
    obtain ⟨-, hresolved⟩ := hcode ⟨⟨"Q", [], [], true⟩, "sign", ⟨"sign", [.int], .int, false⟩⟩ ⟨0, _⟩ _ _ [] [] hs rfl
    simpa [realCount] using (hresolved _ way t rfl ht).2

end

end WhileStack
