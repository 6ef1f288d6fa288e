import WhileStack.Proofs.Eval.Visits

/-! A return ends its activation: nothing that stands in the body is visited behind it, and the activation ends with
the result and the store of the return. The exception is a return in the step of a loop, behind which evaluation goes
on with the condition. -/
namespace WhileStack.Eval
open Source (Expr Stmt FunDecl Place Part)

/-- No loop has a step in which a return stands. -/
abbrev NoReturnInSteps (body : List Stmt) : Prop := Stmt.everyStepIn (fun s => !s.hasReturn) body = true

section
variable {h : Host} {body : List Stmt} {start c : Point} {p : Place} {part : Part}

private theorem runStep_open {step : Option Stmt} {fr fr' : Frame} {st st' : Store}
    (hs : step.all (fun s => !s.hasReturn && s.everyStep fun s => !s.hasReturn) = true)
    (hr : runStep h step fr st = .ok ((), fr') st') : fr.Open fr' := by
  cases step with
  | none =>
    cases hr
    exact .refl fr
  | some s =>
    simp only [Option.all_some, Bool.and_eq_true, Bool.not_eq_true'] at hs
    exact runStmt_open s hs.1 hr

/-- Nothing is visited once the activation has returned. -/
private theorem Visits.returned_eq (hs : NoReturnInSteps body) (h₀ : start.frame.returned = false)
    (hv : Visits h body start p part c) : c.frame.returned = false := by
  induction hv with
  | start => exact h₀
  | item _ ih => exact ih
  | next _ _ hret _ => exact hret
  | yes _ hc ih =>
    rw [evalBool_eq_ok hc]
    exact ih
  | no _ hc ih =>
    rw [evalBool_eq_ok hc]
    exact ih
  | whileLoop _ ih => exact ih
  | forInit _ ih => exact ih
  | @forLoop _ _ d _ _ _ c _ _ _ hd ih =>
    obtain ⟨x, rfl⟩ := runDecl_eq_ok hd
    exact (declare_open (f := c.frame.enter) x).1.trans ih
  | cond _ ih => exact ih
  | body _ hc ih =>
    rw [evalBool_eq_ok hc]
    exact ih
  | step _ _ _ hret _ => exact hret
  | again hv _ _ hret hstep ih =>
    have hall := hv.everyStep hs
    simp only [Part.everyStep, Bool.and_eq_true] at hall
    exact (runStep_open hall.1 hstep).1.trans hret

/-- Runs what stands at a place, where that can return. -/
private def partRun (h : Host) : Part → Option (Run Unit)
  | .block _ rest => some (runAll h rest)
  | .stmt s => some (runStmt h s)
  | .loop e step b n => some (loop (evalBool h e) (inScope (runAll h b)) (runStep h step) n)
  | .decl _ => none
  | .cond _ => none

private theorem stmt_whileDo {l : Source.Loc} {e : Expr} {b : List Stmt} :
    runStmt h (.whileDo l e b) = loop (evalBool h e) (inScope (runAll h b)) (runStep h none) h.rounds := by
  rw [runStmt]
  rfl

private theorem stmt_forDo {l : Source.Loc} {d : Source.VarDecl} {e : Expr} {s : Stmt} {b : List Stmt} :
    runStmt h (.forDo l d e s b) =
      inScope (runDecl h d >>= fun _ => loop (evalBool h e) (inScope (runAll h b)) (runStep h (some s)) h.rounds) := by
  rw [runStmt]
  rfl

/-- The body ends where a visited part returns, with the same result and store. -/
private theorem Visits.finish (hs : NoReturnInSteps body) (hv : Visits h body start p part c) {run : Run Unit}
    (hp : partRun h part = some run) {fr : Frame} {st : Store} (hr : run c.frame c.store = .ok ((), fr) st)
    (hret : fr.returned = true) :
    ∃ fr', runAll h body start.frame start.store = .ok ((), fr') st ∧ fr'.returned = true ∧ fr'.result = fr.result := by
  induction hv generalizing run fr st with
  | start =>
    cases hp
    exact ⟨fr, hr, hret, rfl⟩
  | item _ ih =>
    cases hp
    exact ih rfl (runAll_cons_eq_ok.mpr ⟨fr, st, hr, .inl ⟨hret, rfl, rfl⟩⟩) hret
  | next _ hstmt hopen ih =>
    cases hp
    exact ih rfl (runAll_cons_eq_ok.mpr ⟨_, _, hstmt, .inr ⟨hopen, hr⟩⟩) hret
  | yes _ hc ih =>
    cases hp
    refine @ih _ rfl fr.exit st ?_ hret
    rw [runStmt]
    exact Exec.run_bind_eq_ok.mpr ⟨true, _, _, hc, inScope_eq_ok.mpr ⟨fr, hr, rfl⟩⟩
  | no _ hc ih =>
    cases hp
    refine @ih _ rfl fr.exit st ?_ hret
    rw [runStmt]
    exact Exec.run_bind_eq_ok.mpr ⟨false, _, _, hc, inScope_eq_ok.mpr ⟨fr, hr, rfl⟩⟩
  | whileLoop _ ih =>
    cases hp
    rw [← stmt_whileDo] at hr
    exact ih rfl hr hret
  | forLoop _ hd ih =>
    cases hp
    refine @ih _ rfl fr.exit st ?_ hret
    rw [stmt_forDo]
    exact inScope_eq_ok.mpr ⟨fr, Exec.run_bind_eq_ok.mpr ⟨(), _, _, hd, hr⟩, rfl⟩
  | body _ hc ih =>
    cases hp
    refine @ih _ rfl fr.exit st ?_ hret
    exact loop_succ_eq_ok.mpr (.inr ⟨_, _, _, _, hc, inScope_eq_ok.mpr ⟨fr, hr, rfl⟩, .inl ⟨hret, rfl, rfl⟩⟩)
  | step hv _ _ hopen _ =>
    -- The step holds no return, so it cannot have returned.
    cases hp
    have hall := hv.everyStep hs
    simp only [Part.everyStep, Option.all_some, Bool.and_eq_true, Bool.not_eq_true'] at hall
    have hfr := (runStmt_open _ hall.1.1 hr).1
    rw [hret, hopen] at hfr
    cases hfr
  | again _ hc hb hopen hstep ih =>
    cases hp
    exact ih rfl (loop_succ_eq_ok.mpr (.inr ⟨_, _, _, _, hc, hb, .inr ⟨hopen, _, _, hstep, hr⟩⟩)) hret
  | forInit | cond => cases hp

end

private theorem openFrame_returned (f : FunDecl) (args : List Value) : (openFrame f args).returned = false := by
  have hfold : ∀ (xs : List (String × Value)) (fr : Frame),
      (xs.foldl (fun fr x => fr.declare x.1 x.2) fr).returned = fr.returned := by
    intro xs
    induction xs with
    | nil => intro fr; rfl
    | cons x xs ih => intro fr; exact (ih _).trans (declare_open x.2).1
  exact hfold _ _

/-- A place is visited only while nothing has been returned, and a return that is visited ends the activation with its
result and the store it leaves. -/
theorem return_ends_activation {program : Source.Program} {rounds left : Nat} {f : FunDecl} {args : List Value}
    {st : Store} (hs : NoReturnInSteps f.body) (ha : args.length = f.params.length) {p : Place} {part : Part} {c : Point}
    (hv : Visits ⟨program, f.name, call program rounds left, rounds⟩ f.body (.opening f args st) p part c) :
    c.frame.returned = false ∧ ∀ loc value fr st', part = .stmt (.ret loc value) →
      runReturn ⟨program, f.name, call program rounds left, rounds⟩ value c.frame c.store = .ok ((), fr) st' →
      call program rounds (left + 1) f args st = .ok fr.result st' := by
  refine ⟨hv.returned_eq hs (openFrame_returned f args), ?_⟩
  rintro loc value fr st' rfl hr
  obtain ⟨fr', hbody, hret, hresult⟩ := hv.finish hs rfl hr (runReturn_eq_ok hr).1
  have hrun : inScope (runAll ⟨program, f.name, call program rounds left, rounds⟩ f.body) (openFrame f args) st =
      .ok ((), fr'.exit) st' := inScope_eq_ok.mpr ⟨fr', hbody, rfl⟩
  have hexit : fr'.exit.returned = true := hret
  rw [call_apply ha, hrun]
  dsimp only
  rw [hexit, if_pos rfl, ← hresult]
  rfl

/-- Counts a variable up and returns from inside a loop once it is positive. -/
private def climb : FunDecl :=
  let number (n : Int) : Expr := .const ⟨.int, .unknown⟩ (.int n)
  let i : Expr := .var ⟨.int, .unknown⟩ "i"
  ⟨.unknown, "climb", [], .int,
    [.decl ⟨.unknown, .int, "i", some (number 0)⟩,
     .whileDo .unknown (.const ⟨.bool, .unknown⟩ (.bool true))
      [.ifElse .unknown (.binary ⟨.bool, .unknown⟩ .lt (number 0) i) [.ret .unknown (some i)] [],
       .assign .unknown (.var ⟨.int, .unknown⟩ "i") (.binary ⟨.int, .unknown⟩ .add i (number 1))]], true⟩

/-- Its return is visited in the second round. -/
theorem climb_returns : ∃ h p loc value c fr st', NoReturnInSteps climb.body ∧
    h = ⟨⟨[.fn climb]⟩, "climb", call ⟨[.fn climb]⟩ 5 0, 5⟩ ∧
    Visits h climb.body (.opening climb [] Store.empty) p (.stmt (.ret loc value)) c ∧
    runReturn h value c.frame c.store = .ok ((), fr) st' ∧ c.frame.returned = false ∧ fr.result = .int 1 ∧
    call ⟨[.fn climb]⟩ 5 1 climb [] Store.empty = .ok fr.result st' := by
  have hv : ∃ p loc value c fr st', Visits ⟨⟨[.fn climb]⟩, "climb", call ⟨[.fn climb]⟩ 5 0, 5⟩ climb.body
      (.opening climb [] Store.empty) p (.stmt (.ret loc value)) c ∧
      runReturn ⟨⟨[.fn climb]⟩, "climb", call ⟨[.fn climb]⟩ 5 0, 5⟩ value c.frame c.store = .ok ((), fr) st' ∧
      fr.result = .int 1 :=
    ⟨_, _, _, _, _, _, .item (.yes (.item (.body (.again (.whileLoop (.item (.next .start rfl rfl))) rfl rfl rfl rfl)
      rfl)) rfl), rfl, rfl⟩
  obtain ⟨p, loc, value, c, fr, st', hv, hr, hresult⟩ := hv
  obtain ⟨hopen, hends⟩ := return_ends_activation (f := climb) rfl rfl hv
  exact ⟨_, p, loc, value, c, fr, st', rfl, rfl, hv, hr, hopen, hresult, hends loc value fr st' rfl hr⟩

/-- Prints a variable that counts up, in a loop whose step is a return. -/
private def leap : FunDecl :=
  let number (n : Int) : Expr := .const ⟨.int, .unknown⟩ (.int n)
  let i : Expr := .var ⟨.int, .unknown⟩ "i"
  ⟨.unknown, "main", [], .void,
    [.forDo .unknown ⟨.unknown, .int, "i", some (number 0)⟩ (.binary ⟨.bool, .unknown⟩ .lt i (number 3)) (.ret .unknown none)
      [.print .unknown i,
       .assign .unknown (.var ⟨.int, .unknown⟩ "i") (.binary ⟨.int, .unknown⟩ .add i (number 1))]], true⟩

/-- The return in the step does not end the activation: the body is visited again, and more is printed. -/
theorem leap_goes_on : ∃ h c c' fr st' st'', h = ⟨⟨[.fn leap]⟩, "main", call ⟨[.fn leap]⟩ 5 0, 5⟩ ∧
    Visits h leap.body (.opening leap [] Store.empty) [.step, .item 0] (.stmt (.ret .unknown none)) c ∧
    runReturn h none c.frame c.store = .ok ((), fr) st' ∧ fr.returned = true ∧ st'.out = "0\n" ∧
    Visits h leap.body (.opening leap [] Store.empty) [.item 0, .body, .item 0]
      (.stmt (.print .unknown (.var ⟨.int, .unknown⟩ "i"))) c' ∧ c'.frame.returned = true ∧
    call ⟨[.fn leap]⟩ 5 1 leap [] Store.empty = .ok .null st'' ∧ st''.out = "0\n1\n" :=
  ⟨_, _, _, _, _, _, rfl, .step (.forLoop (.item .start) rfl) rfl rfl rfl, rfl, rfl, rfl,
    .item (.body (.again (.forLoop (.item .start) rfl) rfl rfl rfl rfl) rfl), rfl, rfl, rfl⟩

end WhileStack.Eval
