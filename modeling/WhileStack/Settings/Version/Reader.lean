import WhileStack.Settings.Version
import WhileStack.Text.Fields
import WhileStack.Text.Radix

/-! Reading a version as people write it: blanks around it and a leading `v` are passed over, and parts that are
left out are zero. -/
namespace WhileStack.Version

inductive Part where
  | major
  | minor
  | patch
deriving DecidableEq, Repr

inductive ReadError where
  /-- A version of one or two parts carries a pre-release or build metadata. -/
  | shortWithTail
  | badNumber (part : Part) (text : String)
  | leadingZero (part : Part) (text : String)
  | number (text : String) (fault : Text.NumberFault)
  | emptyPre
  | zeroPre (text : String)
  | badPre (text : String)
  | emptyBuild
  | badBuild (text : String)
deriving DecidableEq, Repr

def Part.word : Part → String
  | .major => "major"
  | .minor => "minor"
  | .patch => "patch"

def Part.title : Part → String
  | .major => "Major"
  | .minor => "Minor"
  | .patch => "Patch"

def ReadError.message : ReadError → String
  | .shortWithTail => "Short version cannot contain PreRelease/Build meta data"
  | .badNumber part t => "Invalid character(s) found in " ++ part.word ++ " number " ++ Text.quote t
  | .leadingZero part t => part.title ++ " number must not contain leading zeroes " ++ Text.quote t
  | .number t f => f.message "ParseUint" t
  | .emptyPre => "Prerelease is empty"
  | .zeroPre t => "Numeric PreRelease version must not contain leading zeroes " ++ Text.quote t
  | .badPre t => "Invalid character(s) found in prerelease " ++ Text.quote t
  | .emptyBuild => "Build meta data is empty"
  | .badBuild t => "Invalid character(s) found in build meta data " ++ Text.quote t

abbrev Read (α : Type) := Except ReadError α

/-- More than one digit, the first of them zero. -/
def startsWithZero (cs : List Char) : Bool := cs.head? = some '0' && 1 < cs.length

def isWordChar (c : Char) : Bool := c.isAlphanum || c = '-'

def readNumber (cs : List Char) : Read Nat :=
  (Text.readDecimal cs).mapError (.number (String.ofList cs))

def readPart (part : Part) (cs : List Char) : Read Nat :=
  if ¬ cs.all Char.isDigit then .error (.badNumber part (String.ofList cs))
  else if startsWithZero cs then .error (.leadingZero part (String.ofList cs))
  else readNumber cs

def readPreId (cs : List Char) : Read PreId :=
  if cs.isEmpty then .error .emptyPre
  else if cs.all Char.isDigit then
    if startsWithZero cs then .error (.zeroPre (String.ofList cs)) else (readNumber cs).map .num
  else if cs.all isWordChar then .ok (.word (String.ofList cs))
  else .error (.badPre (String.ofList cs))

def readBuildId (cs : List Char) : Read String :=
  if cs.isEmpty then .error .emptyBuild
  else if cs.all isWordChar then .ok (String.ofList cs)
  else .error (.badBuild (String.ofList cs))

/-- The last part written of a short version, which must be a bare number. -/
def readShort (cs : List Char) : Read (List Char) :=
  if cs.any fun c => c = '+' || c = '-' then .error .shortWithTail else .ok cs

/-- The texts of the three parts; the third still carries pre-release and build. -/
def splitParts (cs : List Char) : Read (List Char × List Char × List Char) :=
  match Text.cut '.' cs with
  | (major, none) => (readShort major).map fun m => (m, ['0'], ['0'])
  | (major, some rest) =>
    match Text.cut '.' rest with
    | (minor, none) => (readShort minor).map fun n => (major, n, ['0'])
    | (minor, some tail) => .ok (major, minor, tail)

/-- The identifiers of a pre-release or build, none if it was left out. -/
def identifiers (tail : Option (List Char)) : List (List Char) :=
  match tail with
  | none => []
  | some cs => Text.fields '.' cs

def dropMark : List Char → List Char
  | 'v' :: cs => cs
  | cs => cs

def read (s : String) : Read Version := do
  let (major, minor, tail) ← splitParts (dropMark (Text.trim Text.isBlank s.toList))
  let major ← readPart .major major
  let minor ← readPart .minor minor
  let (tail, build) := Text.cut '+' tail
  let (patch, pre) := Text.cut '-' tail
  let patch ← readPart .patch patch
  let pre ← (identifiers pre).mapM readPreId
  let build ← (identifiers build).mapM readBuildId
  return ⟨major, minor, patch, pre, build⟩

end WhileStack.Version
