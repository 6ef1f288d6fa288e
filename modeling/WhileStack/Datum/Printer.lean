import WhileStack.Datum.Basic
import WhileStack.Text.Quoted

/-! Writing a datum on one line. The notes of a list stand behind its items. -/
namespace WhileStack.Datum
open WhileStack.Text

mutual

def render : Datum → String
  | .symbol _ s => s
  | .string _ s => quote s
  | .integer _ s _ => s
  | .list _ items notes =>
    let parts := renderAll items ++
      (if notes.isEmpty then [] else ["^\x7b" ++ ", ".intercalate (renderEntries notes) ++ "\x7d"])
    "(" ++ " ".intercalate parts ++ ")"
  | .map _ entries => "\x7b" ++ ", ".intercalate (renderEntries entries) ++ "\x7d"

def renderAll : List Datum → List String
  | [] => []
  | d :: ds => render d :: renderAll ds

def renderEntries : List (String × Datum) → List String
  | [] => []
  | (k, d) :: rest => (k ++ ": " ++ render d) :: renderEntries rest

end

end WhileStack.Datum
