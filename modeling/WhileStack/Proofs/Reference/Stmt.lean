import WhileStack.Proofs.Exec
import WhileStack.Proofs.Reference.Expr
import WhileStack.Value.Fault

/-! Execution of statements over trees. An assignment into a list or record replaces the value of the variable that it
is in. -/
namespace WhileStack.Reference
open Source (Ty Aliases Expr Stmt VarDecl Target FunDecl Program)
open Eval (Stop ZeroError)

structure Host where
  reading : Reading
  program : Program
  function : String
  call : FunDecl → List Tree → Exec Tree
  /-- How many rounds a loop may take. -/
  rounds : Nat

structure Frame where
  /-- The open scopes, the innermost first. -/
  scopes : List Scope
  returned : Bool
  result : Tree

namespace Frame

def enter (f : Frame) : Frame := { f with scopes := [] :: f.scopes }

def exit (f : Frame) : Frame := { f with scopes := f.scopes.drop 1 }

def declare (f : Frame) (name : String) (t : Tree) : Frame :=
  match f.scopes with
  | [] => { f with scopes := [[(name, t)]] }
  | s :: rest => { f with scopes := ((name, t) :: s) :: rest }

/-- The number of variables in the innermost scope. -/
def width (f : Frame) : Nat := (f.scopes.headD []).length

/-- Forgets the latest variables of the innermost scope. -/
def shrink (f : Frame) (n : Nat) : Frame :=
  match f.scopes with
  | [] => f
  | s :: rest => { f with scopes := s.drop (s.length - n) :: rest }

end Frame

/-- Replaces the first entry of a name. -/
def setFirst (name : String) (t : Tree) : Scope → Option Scope
  | [] => none
  | (n, u) :: rest => if n = name then some ((n, t) :: rest) else (setFirst name t rest).map ((n, u) :: ·)

def setVar (name : String) (t : Tree) : List Scope → Option (List Scope)
  | [] => none
  | s :: rest =>
    match setFirst name t s with
    | some s => some (s :: rest)
    | none => (setVar name t rest).map (s :: ·)

abbrev Run := StateT Frame Exec

/-- What expressions see where the given scopes are open. -/
abbrev Host.view (h : Host) (scopes : List Scope) : View := ⟨h.reading, h.program, h.function, scopes, h.call⟩

def view (h : Host) : Run View := do return h.view (← get).scopes

def eval (h : Host) (e : Expr) : Run Tree := do evalExpr (← view h) e

def evalBool (h : Host) (e : Expr) : Run Bool := do
  let v ← view h
  needBool v e (evalExpr v e)

def inScope (body : Run Unit) : Run Unit := do
  modify Frame.enter
  body
  modify Frame.exit

def runDecl (h : Host) (d : VarDecl) : Run Unit := do
  let t ← match d.init with
    | some e => eval h e
    | none => pure .null
  modify fun f => f.declare d.name t

/-- The scopes after a child of what is at a spot is replaced. -/
def Spot.write (s : Spot) (k : Nat) (t : Tree) (scopes : List Scope) : List Scope :=
  match s with
  | none => scopes
  | some (name, path) =>
    match lookupIn scopes name with
    | none => scopes
    | some root => (setVar name (root.put (path ++ [k]) t) scopes).getD scopes

/-- Puts a value that is already evaluated where an assignment says. -/
def assignTo (h : Host) (target : Target) (t : Tree) : Run Unit := do
  let v ← view h
  match target with
  | .var _ name =>
    match setVar name t v.scopes with
    | some scopes => modify fun f => { f with scopes := scopes }
    | none => throw (.unboundVariable h.function name)
  | .index _ source position => do
    let (spot, l) ← evalTarget v source
    let (_, k) ← elementOf v l position (evalExpr v position) .elementInto
    modify fun f => { f with scopes := spot.write k t f.scopes }
  | .field _ source name => do
    let (spot, r) ← evalTarget v source
    match r.record?.bind (findField name 0) with
    | some (k, _) => modify fun f => { f with scopes := spot.write k t f.scopes }
    | none => throw (.fieldInto name r.tag)

section
variable (h : Host) (a : Source.Attr) (t : Tree) (fr : Frame) (o : String)

theorem assignTo_var (name : String) : assignTo h (.var a name) t fr o =
    match setVar name t fr.scopes with
    | some scopes => .ok ((), { fr with scopes := scopes }) o
    | none => .error (.unboundVariable h.function name) o := by
  have he : assignTo h (.var a name) t fr o = (match setVar name t fr.scopes with
      | some scopes => modify fun f => { f with scopes := scopes }
      | none => throw (.unboundVariable h.function name) : Run Unit) fr o := rfl
  rw [he]
  cases setVar name t fr.scopes <;> rfl

theorem assignTo_index (source position : Expr) : assignTo h (.index a source position) t fr o =
    (evalTarget (h.view fr.scopes) source >>= fun x =>
      elementOf (h.view fr.scopes) x.2 position (evalExpr (h.view fr.scopes) position) .elementInto >>= fun y =>
        pure ((), { fr with scopes := x.1.write y.2 t fr.scopes })) o := by
  let v := h.view fr.scopes
  have he : assignTo h (.index a source position) t fr o = (liftM (evalTarget v source) >>= fun x =>
      liftM (elementOf v x.2 position (evalExpr v position) .elementInto) >>= fun y =>
        modify fun f => { f with scopes := x.1.write y.2 t f.scopes } : Run Unit) fr o := rfl
  rw [he]
  simp only [Exec.lift_bind]
  rfl

theorem assignTo_field (source : Expr) (name : String) : assignTo h (.field a source name) t fr o =
    (evalTarget (h.view fr.scopes) source >>= fun x =>
      match x.2.record?.bind (findField name 0) with
      | some (k, _) => pure ((), { fr with scopes := x.1.write k t fr.scopes })
      | none => throw (.fieldInto name x.2.tag)) o := by
  have he : assignTo h (.field a source name) t fr o = (liftM (evalTarget (h.view fr.scopes) source) >>= fun x =>
      match x.2.record?.bind (findField name 0) with
      | some (k, _) => modify fun f => { f with scopes := x.1.write k t f.scopes }
      | none => throw (.fieldInto name x.2.tag) : Run Unit) fr o := rfl
  rw [he, Exec.lift_bind]
  refine congrArg (fun f => (evalTarget (h.view fr.scopes) source >>= f) o) (funext fun x => ?_)
  cases x.2.record?.bind (findField name 0) <;> rfl

end

/-- The value comes first, then the place it goes to. -/
def runAssign (h : Host) (target : Target) (value : Expr) : Run Unit := do
  let t ← eval h value
  assignTo h target t

def runReturn (h : Host) (value : Option Expr) : Run Unit := do
  match value with
  | some e =>
    let t ← eval h e
    modify fun f => { f with returned := true, result := t }
  | none => modify fun f => { f with returned := true }

/-- A loop of the given number of rounds at most. Read literally it does not look for a return behind the step. -/
def loop (reading : Reading) (cond : Run Bool) (body step : Run Unit) : Nat → Run Unit
  | 0 => throw .outOfBudget
  | rounds + 1 => do
    if ← cond then
      body
      if (← get).returned then return
      step
      if reading == .lowered && (← get).returned then return
      loop reading cond body step rounds

/-- The step of a loop. In compiled code nothing sees what it declares. -/
def stepOf (reading : Reading) (step : Run Unit) : Run Unit :=
  match reading with
  | .literal => step
  | .lowered => do
    let n := (← get).width
    step
    modify fun f => f.shrink n

mutual

def runStmt (h : Host) : Stmt → Run Unit
  | .decl d => runDecl h d
  | .assign _ target value => runAssign h target value
  | .print _ e => do
    let t ← eval h e
    modifyThe String fun out => out ++ t.format ++ "\n"
  | .ifElse _ cond yes no => do
    if ← evalBool h cond then inScope (runAll h yes) else inScope (runAll h no)
  | .whileDo _ cond body => loop h.reading (evalBool h cond) (inScope (runAll h body)) (pure ()) h.rounds
  | .forDo _ init cond step body => inScope do
    runDecl h init
    loop h.reading (evalBool h cond) (inScope (runAll h body)) (stepOf h.reading (runStmt h step)) h.rounds
  | .ret _ value => runReturn h value
  | .expr _ e => do
    let _ ← eval h e

def runAll (h : Host) : List Stmt → Run Unit
  | [] => pure ()
  | s :: rest => do
    runStmt h s
    if (← get).returned then return
    runAll h rest

end

theorem inScope_eq_ok {body : Run Unit} {fr g : Frame} {o o' : String} (h : inScope body fr o = .ok ((), g) o') :
    ∃ fr', body fr.enter o = .ok ((), fr') o' ∧ g = fr'.exit := by
  have he : inScope body fr o = (body >>= fun _ => modify Frame.exit) fr.enter o := rfl
  rw [he, Exec.run_bind_eq_ok] at h
  obtain ⟨_, fr'', o'', hb, hm⟩ := h
  cases hm
  exact ⟨fr'', hb, rfl⟩

mutual

/-- A statement that returns on every path has returned when it ends. -/
theorem returned_of_returns {h : Host} {fr fr' : Frame} {o o' : String} : ∀ (s : Stmt), Stmt.returns s = true →
    runStmt h s fr o = .ok ((), fr') o' → fr'.returned = true
  | .ret _ none, _, hr => by
    cases hr
    rfl
  | .ret _ (some e), _, hr => by
    obtain ⟨t, fr'', o'', -, hm⟩ := Exec.run_bind_eq_ok.mp hr
    cases hm
    rfl
  | .ifElse _ cond yes no, hs, hr => by
    obtain ⟨hy, hn⟩ := Bool.and_eq_true_iff.mp (by simpa only [Stmt.returns] using hs)
    rw [runStmt] at hr
    obtain ⟨b, fr₁, o₁, -, hr⟩ := Exec.run_bind_eq_ok.mp hr
    cases b with
    | true =>
      obtain ⟨fr₂, hb, rfl⟩ := inScope_eq_ok hr
      have hret : fr₂.returned = true := returned_of_allReturn yes hy hb
      exact hret
    | false =>
      obtain ⟨fr₂, hb, rfl⟩ := inScope_eq_ok hr
      have hret : fr₂.returned = true := returned_of_allReturn no hn hb
      exact hret
  | .decl _, hs, _ | .assign _ _ _, hs, _ | .print _ _, hs, _ | .whileDo _ _ _, hs, _ | .forDo _ _ _ _ _, hs, _
  | .expr _ _, hs, _ => by simp [Stmt.returns] at hs

theorem returned_of_allReturn {h : Host} {fr fr' : Frame} {o o' : String} : ∀ (ss : List Stmt), Stmt.allReturn ss = true →
    runAll h ss fr o = .ok ((), fr') o' → fr'.returned = true
  | [], hs, _ => by simp [Stmt.allReturn] at hs
  | s :: rest, hs, hr => by
    rw [runAll] at hr
    obtain ⟨_, fr₁, o₁, hstmt, hr⟩ := Exec.run_bind_eq_ok.mp hr
    obtain ⟨fr₂, fr₃, o₂, hget, hr⟩ := Exec.run_bind_eq_ok.mp hr
    cases hget
    cases hret : fr₁.returned with
    | true =>
      rw [hret] at hr
      cases hr
      exact hret
    | false =>
      rw [hret] at hr
      cases rest with
      | nil =>
        have := returned_of_returns s (by simpa [Stmt.allReturn] using hs) hstmt
        simp [hret] at this
      | cons s' rest => exact returned_of_allReturn (s' :: rest) (by simpa [Stmt.allReturn] using hs) hr

end

/-- A frame that holds the parameters in a scope of their own. -/
def openFrame (f : FunDecl) (args : List Tree) : Frame :=
  ((f.params.map Prod.fst).zip args).foldl (fun fr p => fr.declare p.1 p.2) ⟨[[]], false, .null⟩

/-- Whether the body of a function may be run past. Compiled code looks behind the name of a type. -/
def endsOpen (reading : Reading) (p : Program) (f : FunDecl) : Bool :=
  match reading with
  | .literal => f.ret == .void
  | .lowered =>
    match Lower.layout p.aliases f.ret with
    | .ok t => t.isVoid
    | .error _ => false

/-- Calls a function while `left` activations may still be opened. -/
def call (reading : Reading) (p : Program) (rounds : Nat) : Nat → FunDecl → List Tree → Exec Tree
  | 0, f, _ => throw (.fault ⟨.callDepth, f.name, .depth maxCallDepth⟩)
  | left + 1, f, args =>
    if args.length ≠ f.params.length then throw (.argumentCount f.name f.params.length args.length)
    else do
      let h : Host := ⟨reading, p, f.name, call reading p rounds left, rounds⟩
      let (_, fr) ← (inScope (runAll h f.body)).run (openFrame f args)
      if fr.returned then return fr.result
      else if endsOpen reading p f then return .null
      else throw (.fault ⟨.missingReturn, f.name, .nothing⟩)

mutual

/-- The zero value of a type, given that of each name. -/
def zeroWith (onName : String → Except ZeroError Tree) : Ty → Except ZeroError Tree
  | .int => .ok (.leaf (.int 0))
  | .bool => .ok (.leaf (.bool false))
  | .string => .ok (.leaf (.string ""))
  | .list _ => .ok (.node .list [])
  | .record fs => do .ok (.node (.record (fs.map Prod.fst)) (← zeroFieldsWith onName fs))
  | .void => .error (.noZero .void)
  | .named n => onName n

def zeroFieldsWith (onName : String → Except ZeroError Tree) : List (String × Ty) → Except ZeroError (List Tree)
  | [] => .ok []
  | (_, t) :: rest => do
    let u ← zeroWith onName t
    .ok (u :: (← zeroFieldsWith onName rest))

end

def zeroName (aliases : Aliases) : Nat → String → Except ZeroError Tree
  | 0, _ => .error .endless
  | left + 1, n =>
    match aliases.underlying (.named n) with
    | .error e => .error (.badAlias e)
    | .ok t => zeroWith (zeroName aliases left) t

def zero (aliases : Aliases) (t : Ty) : Except ZeroError Tree := zeroWith (zeroName aliases (aliases.length + 1)) t

def zeroParams (aliases : Aliases) (function : String) : List (String × Ty) → Exec (List Tree)
  | [] => pure []
  | (n, t) :: rest =>
    match zero aliases t with
    | .error e => throw (.noParameter n function e)
    | .ok u => do return u :: (← zeroParams aliases function rest)

/-- Runs the entry point on zero values. -/
def runEntry (reading : Reading) (p : Program) (rounds : Nat) : Exec Unit := do
  match p.entry? with
  | none => throw .noEntry
  | some f =>
    let args ← zeroParams p.aliases f.name f.params
    let _ ← call reading p rounds maxCallDepth f args

end WhileStack.Reference
