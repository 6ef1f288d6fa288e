/-! Decimal integers of 64 bits: an optional sign and at least one digit. -/
namespace WhileStack.Text

/-- The value of a run of the digits `0` to `9`, first digit first. -/
def digitsValue? : List Char → Option Nat
  | [] => none
  | cs => cs.foldl (fun acc c => acc.bind fun n => if c.isDigit then some (10 * n + (c.toNat - 48)) else none) (some 0)

def signedValue? : List Char → Option Int
  | '-' :: cs => (digitsValue? cs).map fun n => -(n : Int)
  | '+' :: cs => (digitsValue? cs).map fun n => (n : Int)
  | cs => (digitsValue? cs).map fun n => (n : Int)

def InInt64 (n : Int) : Prop := -0x8000000000000000 ≤ n ∧ n < 0x8000000000000000

instance (n : Int) : Decidable (InInt64 n) := inferInstanceAs (Decidable (_ ∧ _))

def readInt64? (cs : List Char) : Option Int :=
  (signedValue? cs).filter fun n => decide (InInt64 n)

end WhileStack.Text
