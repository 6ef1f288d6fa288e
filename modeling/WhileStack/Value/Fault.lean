/-! Faults of running programs, and the operations of 32-bit integers that can raise one. -/
namespace WhileStack

inductive FaultKind where
  | divisionByZero
  | indexOutOfRange
  | missingReturn
  | uninitialized
  | callDepth
deriving DecidableEq, Repr

def FaultKind.text : FaultKind → String
  | .divisionByZero => "division by zero"
  | .indexOutOfRange => "index out of range"
  | .missingReturn => "missing return"
  | .uninitialized => "uninitialized variable"
  | .callDepth => "call depth exceeded"

inductive FaultDetail where
  | nothing
  | position (index : Int32) (length : Nat)
  | depth (n : Nat)
  | slot (n : Int)
  | variableName (name : String)
deriving DecidableEq, Repr

def FaultDetail.text : FaultDetail → String
  | .nothing => ""
  | .position i n => "index " ++ toString i.toInt ++ ", length " ++ toString n
  | .depth n => "depth " ++ toString n
  | .slot n => "slot " ++ toString n
  | .variableName n => n

structure Fault where
  kind : FaultKind
  function : String
  detail : FaultDetail
deriving DecidableEq, Repr

def Fault.message (f : Fault) : String :=
  "runtime fault in " ++ f.function ++ ": " ++ f.kind.text
    ++ if f.detail.text.isEmpty then "" else ": " ++ f.detail.text

/-- How many activations may be open at a time. -/
def maxCallDepth : Nat := 1000

/-- The quotient is rounded toward zero and wraps around. -/
def divide (function : String) (a b : Int32) : Except Fault Int32 :=
  if b = 0 then .error ⟨.divisionByZero, function, .nothing⟩ else .ok (a / b)

/-- The remainder has the sign of the dividend. -/
def remainder (function : String) (a b : Int32) : Except Fault Int32 :=
  if b = 0 then .error ⟨.divisionByZero, function, .nothing⟩ else .ok (a % b)

/-- The place of an element in a list of the given length. -/
def elementAt (function : String) (length : Nat) (i : Int32) : Except Fault Nat :=
  if i.toInt < 0 ∨ (length : Int) ≤ i.toInt then .error ⟨.indexOutOfRange, function, .position i length⟩
  else .ok i.toInt.toNat

theorem elementAt_lt {function : String} {n k : Nat} {i : Int32} (h : elementAt function n i = .ok k) : k < n := by
  unfold elementAt at h
  split at h
  · simp at h
  · cases h
    omega

end WhileStack
