import WhileStack.Datum.Pos

/-! Data: symbols, strings, integers, lists and maps. A list may carry named notes besides its items. -/
namespace WhileStack

inductive Datum where
  | symbol (pos : Datum.Pos) (text : String)
  | string (pos : Datum.Pos) (contents : String)
  | integer (pos : Datum.Pos) (text : String) (value : Int)
  | list (pos : Datum.Pos) (items : List Datum) (notes : List (String × Datum))
  | map (pos : Datum.Pos) (entries : List (String × Datum))
deriving Inhabited

namespace Datum

def pos : Datum → Pos
  | symbol p _ => p
  | string p _ => p
  | integer p _ _ => p
  | list p _ _ => p
  | map p _ => p

/-- How a datum's kind is named in messages. -/
def kindName : Datum → String
  | symbol .. => "symbol"
  | string .. => "string"
  | integer .. => "integer"
  | list .. => "list"
  | map .. => "map"

def isAtom : Datum → Bool
  | symbol .. => true
  | string .. => true
  | integer .. => true
  | _ => false

def symbol? : Datum → Option String
  | symbol _ s => some s
  | _ => none

def integer? : Datum → Option Int
  | integer _ _ n => some n
  | _ => none

/-- The leading symbol of a list; empty if there is none. -/
def head : Datum → String
  | list _ (symbol _ s :: _) _ => s
  | _ => ""

def items : Datum → List Datum
  | list _ xs _ => xs
  | _ => []

/-- The note of a list under a name. -/
def note? (d : Datum) (name : String) : Option Datum :=
  match d with
  | list _ _ notes => notes.lookup name
  | _ => none

/-- Adds one note. A name that is already there keeps its place and takes the new value. -/
def addNote (notes : List (String × Datum)) (name : String) (value : Datum) : List (String × Datum) :=
  match notes with
  | [] => [(name, value)]
  | (k, v) :: rest => if k = name then (k, value) :: rest else (k, v) :: addNote rest name value

def addNotes (notes : List (String × Datum)) (more : List (String × Datum)) : List (String × Datum) :=
  more.foldl (fun acc kv => addNote acc kv.1 kv.2) notes

end Datum
end WhileStack
