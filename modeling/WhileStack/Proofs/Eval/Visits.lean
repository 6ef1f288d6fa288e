import WhileStack.Eval.Run
import WhileStack.Proofs.Eval.Stmt
import WhileStack.Proofs.Source.Place

/-! The course of an activation: which places of its body are visited, and with which variables. -/
namespace WhileStack.Eval
open Source (Expr Stmt VarDecl FunDecl Turn Place Part Origin)

/-- What evaluation has when it comes to a place. Every variable is kept with its origin. -/
structure Point where
  frame : Frame
  origins : List (List (String × Origin))
  store : Store

/-- A statement that declares a variable adds an origin. -/
def originsAfter (s : Stmt) (place : Place) (origins : List (List (String × Origin))) : List (List (String × Origin)) :=
  match s with
  | .decl d => addName (d.name, .place place) origins
  | _ => origins

/-- The step of a loop that may have none. -/
def runStep (h : Host) : Option Stmt → Run Unit
  | none => pure ()
  | some s => runStmt h s

def stepOrigins (step : Option Stmt) (place : Place) (origins : List (List (String × Origin))) :
    List (List (String × Origin)) :=
  match step with
  | none => origins
  | some s => originsAfter s place origins

/-- Evaluation of a body from a point on comes to a place with what stands there. A statement is visited before it is
run, a loop before each of its rounds; a return is heeded between statements and behind the body of a loop. -/
inductive Visits (h : Host) (body : List Stmt) (start : Point) : Place → Part → Point → Prop where
  | start : Visits h body start [] (.block 0 body) start
  | item {p i s rest c} : Visits h body start p (.block i (s :: rest)) c →
    Visits h body start (.item i :: p) (.stmt s) c
  | next {p i s rest c fr st} : Visits h body start p (.block i (s :: rest)) c →
    runStmt h s c.frame c.store = .ok ((), fr) st → fr.returned = false →
    Visits h body start p (.block (i + 1) rest) ⟨fr, originsAfter s (.item i :: p) c.origins, st⟩
  | yes {p l e yes no c fr st} : Visits h body start p (.stmt (.ifElse l e yes no)) c →
    evalBool h e c.frame c.store = .ok (true, fr) st →
    Visits h body start (.yes :: p) (.block 0 yes) ⟨fr.enter, [] :: c.origins, st⟩
  | no {p l e yes no c fr st} : Visits h body start p (.stmt (.ifElse l e yes no)) c →
    evalBool h e c.frame c.store = .ok (false, fr) st →
    Visits h body start (.no :: p) (.block 0 no) ⟨fr.enter, [] :: c.origins, st⟩
  | whileLoop {p l e b c} : Visits h body start p (.stmt (.whileDo l e b)) c →
    Visits h body start p (.loop e none b h.rounds) c
  | forInit {p l d e s b c} : Visits h body start p (.stmt (.forDo l d e s b)) c →
    Visits h body start (.init :: p) (.decl d) ⟨c.frame.enter, [] :: c.origins, c.store⟩
  | forLoop {p l d e s b c fr st} : Visits h body start p (.stmt (.forDo l d e s b)) c →
    runDecl h d c.frame.enter c.store = .ok ((), fr) st →
    Visits h body start p (.loop e (some s) b h.rounds) ⟨fr, [(d.name, .place (.init :: p))] :: c.origins, st⟩
  | cond {p e s b n c} : Visits h body start p (.loop e s b (n + 1)) c → Visits h body start (.cond :: p) (.cond e) c
  | body {p e s b n c fr st} : Visits h body start p (.loop e s b (n + 1)) c →
    evalBool h e c.frame c.store = .ok (true, fr) st →
    Visits h body start (.body :: p) (.block 0 b) ⟨fr.enter, [] :: c.origins, st⟩
  | step {p e s b n c fr₁ st₁ fr₂ st₂} : Visits h body start p (.loop e (some s) b (n + 1)) c →
    evalBool h e c.frame c.store = .ok (true, fr₁) st₁ → inScope (runAll h b) fr₁ st₁ = .ok ((), fr₂) st₂ →
    fr₂.returned = false → Visits h body start (.step :: p) (.stmt s) ⟨fr₂, c.origins, st₂⟩
  | again {p e s b n c fr₁ st₁ fr₂ st₂ fr₃ st₃} : Visits h body start p (.loop e s b (n + 1)) c →
    evalBool h e c.frame c.store = .ok (true, fr₁) st₁ → inScope (runAll h b) fr₁ st₁ = .ok ((), fr₂) st₂ →
    fr₂.returned = false → runStep h s fr₂ st₂ = .ok ((), fr₃) st₃ →
    Visits h body start p (.loop e s b n) ⟨fr₃, stepOrigins s (.step :: p) c.origins, st₃⟩

/-- The point at which the body of a function is begun. -/
def Point.opening (f : FunDecl) (args : List Value) (st : Store) : Point :=
  ⟨(openFrame f args).enter,
    [] :: (f.params.map Prod.fst).zipIdx.foldl (fun os x => addName (x.1, .param x.2) os) [[]], st⟩

section
variable {h : Host} {body : List Stmt} {start c : Point} {p : Place} {part : Part}

/-- What holds of every step in a body holds of the steps in what is visited. -/
theorem Visits.everyStep {P : Stmt → Bool} (hs : Stmt.everyStepIn P body = true)
    (hv : Visits h body start p part c) : part.everyStep P = true := by
  induction hv with
  | start => exact hs
  | item _ ih =>
    simp only [Part.everyStep, Stmt.everyStepIn, Bool.and_eq_true] at ih
    exact ih.1
  | next _ _ _ ih =>
    simp only [Part.everyStep, Stmt.everyStepIn, Bool.and_eq_true] at ih
    exact ih.2
  | yes _ _ ih =>
    simp only [Part.everyStep, Stmt.everyStep, Bool.and_eq_true] at ih
    exact ih.1
  | no _ _ ih =>
    simp only [Part.everyStep, Stmt.everyStep, Bool.and_eq_true] at ih
    exact ih.2
  | whileLoop _ ih =>
    simp only [Part.everyStep, Stmt.everyStep] at ih
    simp [Part.everyStep, ih]
  | forInit _ ih => rfl
  | forLoop _ _ ih =>
    simp only [Part.everyStep, Stmt.everyStep] at ih
    simpa [Part.everyStep] using ih
  | cond _ ih => rfl
  | body _ _ ih =>
    simp only [Part.everyStep, Bool.and_eq_true] at ih
    exact ih.2
  | step _ _ _ _ ih =>
    simp only [Part.everyStep, Option.all_some, Bool.and_eq_true] at ih
    exact ih.1.2
  | again _ _ _ _ _ ih => exact ih

end

/-- Two hosts do the same at a point, apart from the parts that are visited behind it. -/
def SameAt (h h' : Host) (c : Point) : Part → Prop
  | .stmt (.ifElse _ e _ _) => evalBool h e c.frame c.store = evalBool h' e c.frame c.store
  | .stmt (.whileDo _ _ _) => True
  | .stmt (.forDo _ _ _ _ _) => True
  | .stmt s => runStmt h s c.frame c.store = runStmt h' s c.frame c.store
  | .decl d => runDecl h d c.frame c.store = runDecl h' d c.frame c.store
  | .cond e => evalBool h e c.frame c.store = evalBool h' e c.frame c.store
  | .block _ _ => True
  | .loop _ _ _ _ => True

section
variable {h h' : Host} {fr : Frame} {st : Store}

private theorem bind_congr {α β : Type} {x y : Run α} {f g : α → Run β} (hx : x fr st = y fr st)
    (hf : ∀ a fr' st', x fr st = .ok (a, fr') st' → f a fr' st' = g a fr' st') : (x >>= f) fr st = (y >>= g) fr st := by
  show (x fr >>= fun r => f r.1 r.2) st = (y fr >>= fun r => g r.1 r.2) st
  rw [Exec.bind_apply, Exec.bind_apply, ← hx]
  cases hr : x fr st with
  | ok r st' => exact hf r.1 r.2 st' hr
  | error e st' => rfl

private theorem inScope_congr {x y : Run Unit} (hx : x fr.enter st = y fr.enter st) :
    inScope x fr st = inScope y fr st := by
  show (x >>= fun _ => modify Frame.exit) fr.enter st = (y >>= fun _ => modify Frame.exit) fr.enter st
  exact bind_congr hx fun _ _ _ _ => rfl

/-- What follows a return is not asked for. -/
private theorem unless_congr {x y : Run Unit} (hx : fr.returned = false → x fr st = y fr st) :
    ((get : Run Frame) >>= fun f => if f.returned = true then pure () else x) fr st =
      ((get : Run Frame) >>= fun f => if f.returned = true then pure () else y) fr st := by
  show (if fr.returned = true then (pure () : Run Unit) else x) fr st =
    (if fr.returned = true then (pure () : Run Unit) else y) fr st
  split
  · rfl
  · rename_i hret
    exact hx (by simpa using hret)

end

/-- Two hosts do the same wherever the first of them comes in a body. -/
structure SameCourse (h h' : Host) (body : List Stmt) (start : Point) : Prop where
  rounds_eq : h'.rounds = h.rounds
  same : ∀ p part c, Visits h body start p part c → SameAt h h' c part

namespace SameCourse
variable {h h' : Host} {body : List Stmt} {start : Point}

private theorem loop_eq (hc : SameCourse h h' body start) {p : Place} {e : Expr} {step : Option Stmt} {b : List Stmt}
    (hb : ∀ p c, Visits h body start p (.block 0 b) c → runAll h b c.frame c.store = runAll h' b c.frame c.store)
    (hs : ∀ s ∈ step, ∀ p c, Visits h body start p (.stmt s) c →
      runStmt h s c.frame c.store = runStmt h' s c.frame c.store) (n : Nat) {c : Point}
    (hv : Visits h body start p (.loop e step b n) c) :
    loop (evalBool h e) (inScope (runAll h b)) (runStep h step) n c.frame c.store =
      loop (evalBool h' e) (inScope (runAll h' b)) (runStep h' step) n c.frame c.store := by
  induction n generalizing c with
  | zero => rw [loop, loop]
  | succ n ih =>
    rw [loop, loop]
    refine bind_congr (hc.same _ _ _ hv.cond) fun t fr₁ st₁ he => ?_
    cases t with
    | false => simp only [Bool.false_eq_true, if_false]
    | true =>
      rw [if_pos rfl, if_pos rfl]
      refine bind_congr (inScope_congr (hb _ _ (hv.body he))) fun _ fr₂ st₂ hr => unless_congr fun hret => ?_
      refine bind_congr ?_ fun _ fr₃ st₃ hstep => ih (hv.again he hr hret hstep)
      cases step with
      | none => rfl
      | some s => exact hs s rfl _ _ (hv.step he hr hret)

mutual

private theorem runStmt_eq (hc : SameCourse h h' body start) : ∀ (s : Stmt) {p : Place} {c : Point},
    Visits h body start p (.stmt s) c → runStmt h s c.frame c.store = runStmt h' s c.frame c.store
  | .ifElse l e yes no, p, c, hv => by
    rw [runStmt, runStmt]
    refine bind_congr (hc.same _ _ _ hv) fun t fr st he => ?_
    cases t with
    | true => exact inScope_congr (hc.runAll_eq yes (hv.yes he))
    | false => exact inScope_congr (hc.runAll_eq no (hv.no he))
  | .whileDo l e b, p, c, hv => by
    rw [runStmt, runStmt, hc.rounds_eq]
    exact hc.loop_eq (fun _ _ hv => hc.runAll_eq b hv) (by simp) h.rounds hv.whileLoop
  | .forDo l d e s b, p, c, hv => by
    rw [runStmt, runStmt, hc.rounds_eq]
    refine inScope_congr (bind_congr (hc.same _ _ _ hv.forInit) fun _ fr st hd => ?_)
    refine hc.loop_eq (fun _ _ hv => hc.runAll_eq b hv) ?_ h.rounds (hv.forLoop hd)
    rintro _ ⟨⟩ _ _ hv
    exact hc.runStmt_eq s hv
  | .decl _, _, _, hv => hc.same _ _ _ hv
  | .assign _ _ _, _, _, hv => hc.same _ _ _ hv
  | .print _ _, _, _, hv => hc.same _ _ _ hv
  | .ret _ _, _, _, hv => hc.same _ _ _ hv
  | .expr _ _, _, _, hv => hc.same _ _ _ hv

private theorem runAll_eq (hc : SameCourse h h' body start) : ∀ (ss : List Stmt) {p : Place} {i : Nat} {c : Point},
    Visits h body start p (.block i ss) c → runAll h ss c.frame c.store = runAll h' ss c.frame c.store
  | [], _, _, _, _ => rfl
  | s :: rest, p, i, c, hv => by
    rw [runAll, runAll]
    refine bind_congr (hc.runStmt_eq s hv.item) fun _ fr st hr => unless_congr fun hret => ?_
    exact hc.runAll_eq rest (hv.next hr hret)

end

/-- Nothing is evaluated but what is visited: hosts that do the same at all visited points come to the same end. -/
theorem body_eq (hc : SameCourse h h' body start) :
    runAll h body start.frame start.store = runAll h' body start.frame start.store :=
  hc.runAll_eq body .start

end SameCourse
end WhileStack.Eval
