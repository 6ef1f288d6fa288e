import WhileStack.Text.Integer
import WhileStack.Text.Quoted

/-! Whole numbers of 64 bits. A number may name its radix: `0b`, `0o` and `0x` stand for two, eight and sixteen, a
bare leading zero for eight, and a single underscore may part two digits. -/
namespace WhileStack.Text

inductive NumberFault where
  | malformed
  | tooLarge
deriving DecidableEq, Repr

def NumberFault.text : NumberFault → String
  | .malformed => "invalid syntax"
  | .tooLarge => "value out of range"

/-- How a refused number is reported by the reader called `reader`. -/
def NumberFault.message (reader text : String) (f : NumberFault) : String :=
  "strconv." ++ reader ++ ": parsing " ++ quote text ++ ": " ++ f.text

def digitValue? (c : Char) : Option Nat :=
  if c.isDigit then some (c.toNat - 48)
  else if c.isLower then some (c.toNat - 87)
  else if c.isUpper then some (c.toNat - 55)
  else none

/-- Reads digits onto `acc`. The first digit that does not fit settles the outcome, whatever follows it. -/
def readDigits (radix : Nat) : Nat → List Char → Except NumberFault Nat
  | acc, [] => .ok acc
  | acc, c :: cs =>
    match digitValue? c with
    | none => .error .malformed
    | some d =>
      if radix ≤ d then .error .malformed
      else if 0x10000000000000000 ≤ acc * radix + d then .error .tooLarge
      else readDigits radix (acc * radix + d) cs

/-- A decimal number without a sign. -/
def readDecimal (cs : List Char) : Except NumberFault Nat :=
  if cs.isEmpty then .error .malformed else readDigits 10 0 cs

/-- The radix a number names, and its digits. -/
def namedRadix (cs : List Char) : Nat × List Char :=
  match cs with
  | '0' :: mark :: d :: ds =>
    match mark.toLower with
    | 'b' => (2, d :: ds)
    | 'o' => (8, d :: ds)
    | 'x' => (16, d :: ds)
    | _ => (8, mark :: d :: ds)
  | '0' :: ds => (8, ds)
  | ds => (10, ds)

/-- Each underscore stands between two digits; `afterDigit` tells whether one came right before. -/
def underscoresPart (isDigit : Char → Bool) : Bool → List Char → Bool
  | _, [] => true
  | afterDigit, c :: cs =>
    if c = '_' then afterDigit && (cs.head?.map isDigit).getD false && underscoresPart isDigit false cs
    else underscoresPart isDigit (isDigit c) cs

/-- A number without a sign, in the radix it names. -/
def readUnsigned (cs : List Char) : Except NumberFault Nat := do
  if cs.isEmpty then .error .malformed
  let (radix, digits) := namedRadix cs
  let n ← readDigits radix 0 (digits.filter (· ≠ '_'))
  if underscoresPart (fun c => (digitValue? c).isSome) (cs.head? = some '0') digits then .ok n else .error .malformed

/-- A number with an optional sign, in the radix it names. -/
def readSigned (cs : List Char) : Except NumberFault Int := do
  let n ← match cs with
    | '-' :: ds => (readUnsigned ds).map fun n => -(n : Int)
    | '+' :: ds => (readUnsigned ds).map fun n => (n : Int)
    | ds => (readUnsigned ds).map fun n => (n : Int)
  if InInt64 n then .ok n else .error .tooLarge

end WhileStack.Text
