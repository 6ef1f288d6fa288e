import WhileStack.Proofs.Correctness

/-! Values of programs are trees. Lists and records lie in a heap, are shared by reference and are written in place; what a
program prints and how it ends is nevertheless what comes of evaluating over trees, where an assignment into a list or
record gives the variable it is in another tree. -/
namespace WhileStack

namespace Reference

/-- What a run over trees prints, and why it stopped if it did not finish. -/
def run (p : Source.Program) (rounds : Nat) : Eval.Outcome := outcome (runEntry .literal p rounds "")

/-- Evaluation over trees ends, with no loop cut short. -/
def Ends (p : Source.Program) (out : Eval.Outcome) : Prop :=
  ∃ rounds, run p rounds = out ∧ out.stop ≠ some .outOfBudget

end Reference

/-- Every program, whether it can be compiled or not, prints the same and stops for the same reason with a heap and over
trees: it ends in one way if and only if it ends in the other. Where loops are cut short, they are so in both alike. -/
theorem ends_like_trees (p : Source.Program) :
    (∀ rounds, Eval.run p rounds = Reference.run p rounds) ∧
      ∀ out, Eval.Ends p out ↔ Reference.Ends p out := by
  have hrun : ∀ rounds, Eval.run p rounds = Reference.run p rounds :=
    Evaluation.run_eq_outcome .literal nofun
  refine ⟨hrun, fun out => ?_⟩
  simp only [Eval.Ends, Reference.Ends, hrun]

/-- Writes into a list of lists behind its copy, at a position that a function gives. -/
private def shelves : Source.Program :=
  let number (n : Int) : Source.Expr := .const ⟨.int, .unknown⟩ (.int n)
  let read (n : String) : Source.Expr := .var ⟨.list (.list .int), .unknown⟩ n
  let row (ns : List Int) : Source.Expr := .list ⟨.list .int, .unknown⟩ (ns.map number)
  ⟨[.fn ⟨.unknown, "last", [], .int, [.ret .unknown (some (number 1))], false⟩,
    .fn ⟨.unknown, "main", [], .void,
      [.decl ⟨.unknown, .list (.list .int), "a", some (.list ⟨.list (.list .int), .unknown⟩ [row [1, 2], row [3]])⟩,
        .decl ⟨.unknown, .list (.list .int), "b", some (read "a")⟩,
        .assign .unknown (.index ⟨.int, .unknown⟩ (.index ⟨.list .int, .unknown⟩ (read "a") (number 0))
          (.call ⟨.int, .unknown⟩ "last" [])) (number 9),
        .print .unknown (read "a"), .print .unknown (read "b")], true⟩]⟩

example : Reference.run shelves 1 = ⟨"[[1, 9], [3]]\n[[1, 2], [3]]\n", none⟩ := rfl

end WhileStack
