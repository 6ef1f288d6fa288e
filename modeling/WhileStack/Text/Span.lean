/-! Sets of characters, given by ascending disjoint spans of code points. -/
namespace WhileStack.Text

/-- Closed spans of code points, lowest first. -/
abbrev Spans := List (Nat × Nat)

/-- The search stops at the first span that starts above the code point. -/
def Spans.has : Spans → Nat → Bool
  | [], _ => false
  | (lo, hi) :: rest, n => if n < lo then false else n ≤ hi || has rest n

end WhileStack.Text
