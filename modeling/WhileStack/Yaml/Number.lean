import WhileStack.Text.Fields
import WhileStack.Text.Radix

/-! Which plain scalars read as numbers. -/
namespace WhileStack.Yaml
open Text

/-- Mantissa and exponent of a decimal: its digits as one number, and the power of ten that scales them. -/
structure Decimal where
  digits : Nat
  scale : Int
deriving DecidableEq, Repr

def Decimal.ofParts (whole fraction : List Char) (exponent : Int) : Decimal :=
  ⟨(whole ++ fraction).foldl (fun n c => 10 * n + (c.toNat - 48)) 0, exponent - fraction.length⟩

/-- A decimal without a sign: digits before the point, behind it, or on both sides, and an exponent. A point may
only stand alone at the end of digits. -/
def decimal? (cs : List Char) : Option Decimal := do
  let whole := cs.takeWhile Char.isDigit
  let rest := cs.dropWhile Char.isDigit
  let (fraction, rest) := match rest with
    | '.' :: ds => (ds.takeWhile Char.isDigit, ds.dropWhile Char.isDigit)
    | ds => ([], ds)
  guard (¬ (whole.isEmpty ∧ fraction.isEmpty))
  match rest with
  | [] => return .ofParts whole fraction 0
  | c :: ds =>
    guard (c = 'e' ∨ c = 'E')
    return .ofParts whole fraction (← signedValue? ds)

/-- The least number that rounds to no finite number of double precision. -/
def overflow : Nat := Nat.pow 2 1024 - Nat.pow 2 970

/-- Whether the value is below `overflow`. The number of digits settles it except near the limit. -/
def Decimal.isFinite (d : Decimal) : Bool :=
  if d.digits = 0 then true
  else
    let size : Int := (Nat.toDigits 10 d.digits).length + d.scale
    if size < 308 then true
    else if 310 < size then false
    else if 0 ≤ d.scale then d.digits * Nat.pow 10 d.scale.toNat < overflow
    else d.digits < overflow * Nat.pow 10 (-d.scale).toNat

/-- Decimals that are too large stay text. -/
def isFloat (cs : List Char) : Bool := ((decimal? cs).map Decimal.isFinite).getD false

def dropSign : List Char → List Char
  | '-' :: cs => cs
  | '+' :: cs => cs
  | cs => cs

/-- Digits of one radix with an optional sign. -/
def isSignedIn (radix : Nat) (cs : List Char) : Bool :=
  let ds := dropSign cs
  !ds.isEmpty && match readDigits radix 0 ds with
    | .ok n => if cs.head? = some '-' then n ≤ 0x8000000000000000 else cs.head? ≠ some '+' || n < 0x8000000000000000
    | .error _ => false

/-- The mark of a radix with signed digits behind it, as in `0b-1`. -/
def isMarked (cs : List Char) : Bool :=
  match cs with
  | '0' :: 'b' :: ds => isSignedIn 2 ds
  | '0' :: 'o' :: ds => isSignedIn 8 ds
  | _ => false

/-- Integers fit 64 bits, with a sign or without. -/
def isInteger (cs : List Char) : Bool :=
  (readSigned cs).isOk || (readUnsigned cs).isOk || isMarked cs

/-- Sexagesimal numbers, as in `190:20:30.15`. -/
def isSexagesimal (cs : List Char) : Bool :=
  match fields ':' (dropSign cs) with
  | first :: group :: groups =>
    let groups := group :: groups
    let (last, fraction) := cut '.' (groups.getLast?.getD [])
    let isGroup (g : List Char) : Bool := match g with
      | [a] => a.isDigit
      | [a, b] => a.isDigit && decide (a.toNat ≤ 53) && b.isDigit
      | _ => false
    let isRun (g : List Char) : Bool := g.all fun c => c.isDigit || c = '_'
    isRun first && (first.head?.map Char.isDigit).getD false && (groups.dropLast ++ [last]).all isGroup &&
      (fraction.map isRun).getD true
  | _ => false

end WhileStack.Yaml
