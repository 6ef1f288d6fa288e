import WhileStack.Text.Fields
import WhileStack.Text.Radix

/-! Flags of the command line. They may stand anywhere among the arguments, up to a lone `--`. -/
namespace WhileStack.Cli
open Text

inductive Flag where
  | config
  | logToStderr
  | verbose
  | format
  | help
deriving DecidableEq, Repr

namespace Flag

def name : Flag → String
  | .config => "config"
  | .logToStderr => "logtostderr"
  | .verbose => "verbose"
  | .format => "format"
  | .help => "help"

def letter? : Flag → Option Char
  | .verbose => some 'v'
  | .help => some 'h'
  | _ => none

/-- Switches may stand without a value. -/
def isSwitch : Flag → Bool
  | .logToStderr => true
  | .help => true
  | _ => false

/-- The flag in all its spellings. -/
def title (f : Flag) : String :=
  match f.letter? with
  | some c => "-" ++ c.toString ++ ", --" ++ f.name
  | none => "--" ++ f.name

def named? (known : List Flag) (name : List Char) : Option Flag := known.find? fun f => f.name.toList = name

def lettered? (known : List Flag) (c : Char) : Option Flag := known.find? fun f => f.letter? = some c

end Flag

/-- Why a value does not suit its flag. -/
inductive ValueFault where
  | number (fault : NumberFault)
  | truth
deriving DecidableEq, Repr

def ValueFault.message (value : String) : ValueFault → String
  | .number f => f.message "ParseInt" value
  | .truth => NumberFault.malformed.message "ParseBool" value

inductive UsageError where
  | unknownCommand (word : String)
  | malformedFlag (word : String)
  | unknownFlag (name : String)
  | unknownLetter (c : Char) (letters : String)
  | noValue (word : String)
  | noLetterValue (c : Char)
  | badValue (flag : Flag) (value : String) (fault : ValueFault)
  | notOneArgument (count : Nat)
  | noArgument
deriving DecidableEq, Repr

def UsageError.message : UsageError → String
  | .unknownCommand w => "unknown command " ++ quote w ++ " for \"whilec\""
  | .malformedFlag w => "bad flag syntax: " ++ w
  | .unknownFlag name => "unknown flag: --" ++ name
  | .unknownLetter c letters => "unknown shorthand flag: " ++ quoteLetter c ++ " in -" ++ letters
  | .noValue w => "flag needs an argument: " ++ w
  | .noLetterValue c => "flag needs an argument: " ++ quoteLetter c ++ " in -" ++ c.toString
  | .badValue flag value fault =>
    "invalid argument " ++ quote value ++ " for " ++ quote flag.title ++ " flag: " ++ fault.message value
  | .notOneArgument count => "accepts 1 arg(s), received " ++ toString count
  | .noArgument => "requires at least 1 arg(s), only received 0"

/-- The settings of the flags, as far as they matter. -/
structure Flags where
  config : String
  format : String
  help : Bool
deriving DecidableEq, Repr

def defaultConfig : String := "whilec.yaml"

def Flags.initial : Flags := ⟨defaultConfig, "text", false⟩

def truthOf? (s : String) : Option Bool :=
  if s ∈ ["1", "t", "T", "TRUE", "true", "True"] then some true
  else if s ∈ ["0", "f", "F", "FALSE", "false", "False"] then some false
  else none

/-- Sets one flag. What governs logging is checked and otherwise without effect. -/
def Flags.set (fs : Flags) (flag : Flag) (value : String) : Except UsageError Flags :=
  let truth : Except UsageError Bool := match truthOf? value with
    | some b => .ok b
    | none => .error (.badValue flag value .truth)
  match flag with
  | .config => .ok { fs with config := value }
  | .format => .ok { fs with format := value }
  | .help => truth.map fun b => { fs with help := b }
  | .logToStderr => truth.map fun _ => fs
  | .verbose =>
    match readSigned value.toList with
    | .ok _ => .ok fs
    | .error f => .error (.badValue flag value (.number f))

/-- What one word of the command line says. -/
inductive Word where
  | argument
  /-- All words behind it are arguments. -/
  | stop
  | flags (settings : List (Flag × String))
  /-- The last flag takes its value from the next word; without one, the error applies. -/
  | awaiting (settings : List (Flag × String)) (flag : Flag) (ifLast : UsageError)
deriving DecidableEq, Repr

/-- The character with the number of a character's first byte. -/
def leadByte (c : Char) : Char := Char.ofNat ((c.toString.toUTF8.toList.head?.map UInt8.toNat).getD 0)

/-- A group of letters. Switches may share a group; what follows another letter is its value. -/
def readLetters (known : List Flag) : List Char → Except UsageError Word
  | [] => .ok (.flags [])
  | c :: rest =>
    match Flag.lettered? known c with
    | none => .error (.unknownLetter (leadByte c) (String.ofList (c :: rest)))
    | some f =>
      match rest, f.isSwitch with
      | '=' :: d :: ds, _ => .ok (.flags [(f, String.ofList (d :: ds))])
      | [], false => .ok (.awaiting [] f (.noLetterValue c))
      | rest, false => .ok (.flags [(f, String.ofList rest)])
      | rest, true =>
        (readLetters known rest).map fun
          | .flags more => .flags ((f, "true") :: more)
          | .awaiting more g e => .awaiting ((f, "true") :: more) g e
          | w => w

/-- A flag by its name, with a value behind `=` or in the next word. -/
def readName (known : List Flag) (cs : List Char) : Except UsageError Word :=
  let word := "--" ++ String.ofList cs
  if cs.head? = some '-' ∨ cs.head? = some '=' then .error (.malformedFlag word)
  else
    let (name, value) := cut '=' cs
    match Flag.named? known name, value with
    | none, _ => .error (.unknownFlag (String.ofList name))
    | some f, some v => .ok (.flags [(f, String.ofList v)])
    | some f, none => .ok (if f.isSwitch then .flags [(f, "true")] else .awaiting [] f (.noValue word))

/-- Words for a test runner, which are passed over. -/
def isForTests (cs : List Char) : Bool := cs.take 5 = ['t', 'e', 's', 't', '.']

def readWord (known : List Flag) (w : String) : Except UsageError Word :=
  match w.toList with
  | '-' :: '-' :: [] => .ok .stop
  | '-' :: '-' :: cs => readName known cs
  | '-' :: c :: cs => if isForTests (c :: cs) then .ok (.flags []) else readLetters known (c :: cs)
  | _ => .ok .argument

def Flags.setAll (fs : Flags) (settings : List (Flag × String)) : Except UsageError Flags :=
  settings.foldlM (fun fs (f, v) => fs.set f v) fs

/-- Tells flags from arguments, from left to right. A flag may be waiting for its value. -/
def readWords (known : List Flag) :
    Option (Flag × UsageError) → Flags → List String → Except UsageError (Flags × List String)
  | none, fs, [] => .ok (fs, [])
  | some (_, e), _, [] => .error e
  | some (f, _), fs, v :: ws => do readWords known none (← fs.set f v) ws
  | none, fs, w :: ws => do
    match ← readWord known w with
    | .argument =>
      let (fs, args) ← readWords known none fs ws
      return (fs, w :: args)
    | .stop => return (fs, ws)
    | .flags settings => readWords known none (← fs.setAll settings) ws
    | .awaiting settings f e => readWords known (some (f, e)) (← fs.setAll settings) ws

end WhileStack.Cli
