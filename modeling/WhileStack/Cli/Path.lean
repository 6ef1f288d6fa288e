import WhileStack.Text.Fields

/-! Paths of files, taken apart at slashes and dots. -/
namespace WhileStack.Cli
open Text

/-- The last part of a path. Slashes at its end do not count; a path of nothing else is a slash, and an empty one
is the current directory. -/
def baseName (path : List Char) : List Char :=
  if path.isEmpty then ['.']
  else match trimRight (· = '/') path with
    | [] => ['/']
    | cs => (fields '/' cs).getLast?.getD []

/-- Drops everything from the last dot on, if there is one. -/
def dropExtension (cs : List Char) : List Char :=
  if '.' ∈ cs then (trimRight (· ≠ '.') cs).dropLast else cs

/-- The name of the class that a source file compiles to. -/
def programName (path : String) : String := String.ofList (dropExtension (baseName path.toList))

end WhileStack.Cli
