import WhileStack.Cli.Flags

/-! Commands, and how the words of a command line name one. -/
namespace WhileStack.Cli

inductive Command where
  | build
  | check
  | run
  | interp
deriving DecidableEq, Repr

namespace Command

def name : Command → String
  | .build => "build"
  | .check => "check"
  | .run => "run"
  | .interp => "interp"

def all : List Command := [.build, .check, .run, .interp]

def named? (word : String) : Option Command := all.find? fun c => c.name = word

end Command

/-- The flags that every command understands. -/
def sharedFlags : List Flag := [.config, .logToStderr, .verbose]

def Command.flags : Command → List Flag
  | .build => .format :: .help :: sharedFlags
  | _ => .help :: sharedFlags

/-- Whether a word is a flag whose value is the next word, as far as one can tell before the command is known. -/
def takesNext (w : String) : Bool :=
  let isSwitch (f : Option Flag) : Bool := (f.map Flag.isSwitch).getD false
  match w.toList with
  | '-' :: '-' :: name => '=' ∉ name && !isSwitch (Flag.named? sharedFlags name)
  | ['-', c] => c ≠ '=' && c.toNat < 0x80 && !isSwitch (Flag.lettered? sharedFlags c)
  | _ => false

def isDashed (w : String) : Bool := w.toList.head? = some '-'

/-- The words that are neither flags nor their values; the first of them names the command. A flag that would take
the last word leaves none behind. -/
def plainWords : List String → List String
  | [] => []
  | w :: ws =>
    if w = "--" then []
    else if takesNext w then
      match ws with
      | _ :: v :: rest => plainWords (v :: rest)
      | _ => []
    else if w = "" ∨ isDashed w then plainWords ws
    else w :: plainWords ws

/-- Takes the command's name out of the words. -/
def withoutFirst (name : String) : List String → List String
  | [] => []
  | w :: ws =>
    if w = "--" then w :: ws
    else if takesNext w then
      match ws with
      | v :: rest => w :: v :: withoutFirst name rest
      | [] => [w]
    else if w = name then ws
    else w :: withoutFirst name ws

/-- What a command line asks for. -/
inductive Request where
  | help
  | perform (command : Command) (flags : Flags) (path : String) (arguments : List String)
deriving DecidableEq, Repr

/-- Listing and checking take one file; programs that run may be given arguments. -/
def requestOf (c : Command) (fs : Flags) (args : List String) : Except UsageError Request :=
  match c, args with
  | _, [path] => .ok (.perform c fs path [])
  | .run, path :: rest => .ok (.perform c fs path rest)
  | .interp, path :: rest => .ok (.perform c fs path rest)
  | .run, [] => .error .noArgument
  | .interp, [] => .error .noArgument
  | _, args => .error (.notOneArgument args.length)

def readCommand (c : Command) (words : List String) : Except UsageError Request := do
  let (fs, args) ← readWords c.flags none .initial words
  if fs.help then return .help
  requestOf c fs args

/-- The request of a command line. Without a command, help is given once the flags have been found in order. -/
def Request.ofWords (words : List String) : Except UsageError Request :=
  match plainWords words with
  | [] => (readWords (.help :: sharedFlags) none .initial words).map fun _ => .help
  | w :: _ =>
    match Command.named? w with
    | some c => readCommand c (withoutFirst w words)
    | none => if w = "help" then .ok .help else .error (.unknownCommand w)

end WhileStack.Cli
