import WhileStack.Text.Fields

/-! Reading files by path, and a directory tree held in memory to read them from. -/
namespace WhileStack.Cli
open Text

inductive FileError where
  | missing
  | isDirectory
  /-- A part of the path other than the last names a file. -/
  | notDirectory
  | denied
deriving DecidableEq, Repr

def FileError.message (path : String) : FileError → String
  | .missing => "open " ++ path ++ ": no such file or directory"
  | .isDirectory => "read " ++ path ++ ": is a directory"
  | .notDirectory => "open " ++ path ++ ": not a directory"
  | .denied => "open " ++ path ++ ": permission denied"

/-- Files by their paths below the working directory. -/
abbrev Files := List (String × String)

namespace Files

def parts (path : String) : List (List Char) := fields '/' path.toList

def file? (fs : Files) (place : List (List Char)) : Option String :=
  (fs.find? fun (path, _) => parts path = place).map Prod.snd

/-- Whether some file lies below a place. -/
def hasBelow (fs : Files) (place : List (List Char)) : Bool :=
  fs.any fun (path, _) => (parts path).take place.length = place && place.length < (parts path).length

/-- Parts that stay where they are. -/
def staysPut (part : List Char) : Bool := part = [] || part = ['.']

/-- Walks down from a directory, given by its parts in reverse. Nothing above the working directory is known but
that it consists of directories. -/
def walk (fs : Files) : List (List Char) → List (List Char) → Except FileError String
  | _, [] => .error .isDirectory
  | place, part :: rest =>
    if staysPut part then walk fs place rest
    else if part = ['.', '.'] then
      match place with
      | _ :: above => walk fs above rest
      | [] => .error (if rest.all fun p => staysPut p || p = ['.', '.'] then .isDirectory else .missing)
    else
      let place := part :: place
      match fs.file? place.reverse with
      | some content => if rest.isEmpty then .ok content else .error .notDirectory
      | none => if fs.hasBelow place.reverse then walk fs place rest else .error .missing

/-- The content of a file. An absolute path leads out of the tree. -/
def read (fs : Files) (path : String) : Except FileError String :=
  match path.toList with
  | [] => .error .missing
  | '/' :: cs => .error (if (fields '/' cs).all staysPut then .isDirectory else .missing)
  | _ => fs.walk [] (parts path)

end Files
end WhileStack.Cli
