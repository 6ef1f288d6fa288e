import WhileStack.Cli.Command
import WhileStack.Cli.Files
import WhileStack.Cli.Path
import WhileStack.Eval.Run
import WhileStack.Lower.Program
import WhileStack.Machine.Outline
import WhileStack.Machine.Run
import WhileStack.Settings.Basic
import WhileStack.Source.OfDatum

/-! Carrying out a command line. Files are read through a function that the caller supplies, so the same code serves
a disk and a tree in memory. -/
namespace WhileStack.Cli

inductive Failure where
  | usage (e : UsageError)
  | reading (path : String) (e : FileError)
  | loading (path : String) (e : Settings.Error)
  | parsing (path : String) (e : Source.ParseError)
  | compiling (es : List Lower.ProgramError)
  | unknownFormat (name : String)
  | onMachine (s : Machine.Stop)
  | inEvaluator (s : Eval.Stop)
  /-- The budget of steps ran out. -/
  | unfinished

def Failure.message : Failure → String
  | .usage e => e.message
  | .reading path e => "reading " ++ path ++ ": " ++ e.message path
  | .loading path e => "loading " ++ path ++ ": " ++ e.message
  | .parsing path e => "parsing " ++ path ++ ": " ++ e.message
  | .compiling es => Lower.outline (es.map Lower.ProgramError.message)
  | .unknownFormat name => "unknown format " ++ Text.quote name ++ ", want text or yaml"
  | .onMachine s => s.message
  | .inEvaluator s => s.message
  | .unfinished => "step budget exhausted"

/-- Faults of the running program are told apart from all other failures. -/
def Failure.isFault : Failure → Bool
  | .onMachine (.fault _) => true
  | .inEvaluator (.fault _) => true
  | _ => false

/-- What a command printed, and why it failed if it did. -/
structure Report where
  out : String
  failure : Option Failure

namespace Report

def ok (out : String) : Report := ⟨out, none⟩

def fail (f : Failure) : Report := ⟨"", some f⟩

def exitCode (r : Report) : Nat := if r.failure.isSome then 1 else 0

/-- The label of a failure: bold red for errors, bold yellow for faults. -/
def label (color : Bool) (f : Failure) : String :=
  let (word, code) := if f.isFault then ("fault:", "33") else ("error:", "31")
  if color then "\x1b[" ++ code ++ ";1m" ++ word ++ "\x1b[0;22m" else word

def diagnostics (color : Bool) (r : Report) : String :=
  match r.failure with
  | none => ""
  | some f => label color f ++ " " ++ f.message ++ "\n"

end Report

/-- A source file that has been read, under the settings that apply to it. -/
structure Loaded where
  settings : Settings
  path : String
  program : Source.Program

def loadSettings (path : String) (content : Except FileError String) : Except Failure Settings :=
  match content with
  | .ok text => (Settings.parse text).mapError (.loading path)
  | .error e => if e = .missing ∧ path = defaultConfig then .ok .standard else .error (.reading path e)

def loadProgram (settings : Settings) (path : String) (content : Except FileError String) : Except Failure Loaded := do
  let text ← content.mapError (.reading path)
  let program ← (Source.Program.parse settings.entryPoint text).mapError (.parsing path)
  return ⟨settings, path, program⟩

/-- Reads the settings, and the source only if they are in order. A missing file of the default name is no error. -/
def load {m : Type → Type} [Monad m] (read : String → m (Except FileError String)) (config path : String) :
    m (Except Failure Loaded) := do
  match loadSettings config (← read config) with
  | .error e => return .error e
  | .ok settings => return loadProgram settings path (← read path)

def Loaded.compile (l : Loaded) : Except Failure Machine.Program :=
  (Lower.compile ⟨programName l.path, l.settings.version, l.settings.shouldVerify⟩ l.program).mapError .compiling

/-- Digits in groups of three, last digit first. -/
def groupDigits : List Char → List Char
  | a :: b :: c :: d :: ds => a :: b :: c :: ',' :: groupDigits (d :: ds)
  | ds => ds

/-- A count with a comma at every thousand. -/
def countText (n : Nat) : String := String.ofList (groupDigits (Nat.toDigits 10 n).reverse).reverse

def listing (format : String) (p : Machine.Program) : Except Failure String :=
  match format with
  | "text" => .ok p.listing
  | "yaml" => .ok p.outline.render
  | _ => .error (.unknownFormat format)

def summary (path : String) (p : Machine.Program) : String :=
  path ++ ": ok, " ++ countText p.methods.length ++ " functions, " ++
    countText (p.methods.foldl (fun n f => n + f.code.size) 0) ++ " instructions\n"

def reportOf (r : Except Failure String) : Report :=
  match r with
  | .ok out => .ok out
  | .error f => .fail f

/-- Performs a command on a program that has been read. -/
def Loaded.perform (l : Loaded) (command : Command) (flags : Flags) (arguments : List String) (budget : Nat) : Report :=
  match command with
  | .build => reportOf (l.compile >>= listing flags.format)
  | .check => reportOf (l.compile.map (summary l.path))
  | .run =>
    match l.compile with
    | .error f => .fail f
    | .ok p =>
      match Machine.run p budget arguments with
      | none => .fail .unfinished
      | some o => ⟨o.out, o.stop.map .onMachine⟩
  | .interp =>
    let o := Eval.run l.program budget
    ⟨o.out, o.stop.map .inEvaluator⟩

def usage : String :=
  "usage: whilec [--config FILE] [--logtostderr] [-v LEVEL] COMMAND FILE [ARGUMENT...]\n" ++
  "commands: build [--format text|yaml], check, run, interp\n"

/-- Carries out a command line, with a budget for the steps of the program it runs. -/
def execute {m : Type → Type} [Monad m] (read : String → m (Except FileError String)) (budget : Nat)
    (words : List String) : m Report := do
  match Request.ofWords words with
  | .error e => return .fail (.usage e)
  | .ok .help => return .ok usage
  | .ok (.perform command flags path arguments) =>
    match ← load read flags.config path with
    | .error f => return .fail f
    | .ok l => return l.perform command flags arguments budget

end WhileStack.Cli
