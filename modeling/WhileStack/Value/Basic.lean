/-! Run-time values. Lists and records live in a heap and are shared by reference. -/
namespace WhileStack

inductive Value where
  /-- No value: what an unset variable holds and a void call yields. -/
  | null
  | int (n : Int32)
  | bool (b : Bool)
  | string (s : String)
  /-- A list or record, by its place in the heap. -/
  | ref (addr : Nat)
  /-- An object is told apart from others by its number. -/
  | object (id : Nat) (cls : String)
  | array (elems : List String)
deriving DecidableEq, Repr, Inhabited

inductive Cell where
  | list (elems : List Value)
  /-- The fields in the order of the layout. -/
  | record (fields : List (String × Value))
deriving DecidableEq, Repr

structure Heap where
  cells : Array Cell
  /-- How many objects have been made. -/
  objects : Nat
deriving DecidableEq, Repr

/-- What kind of value is meant, as messages name it. -/
inductive Tag where
  | nothing
  | int
  | bool
  | string
  | list
  | record
  | object
  | array
deriving DecidableEq, Repr

def Tag.text : Tag → String
  | .nothing => "<nil>"
  | .int => "value.Int"
  | .bool => "value.Bool"
  | .string => "value.Str"
  | .list => "*value.List"
  | .record => "*value.Record"
  | .object => "*value.Object"
  | .array => "*value.Array"

namespace Heap

def empty : Heap := ⟨#[], 0⟩

def cell? (h : Heap) (a : Nat) : Option Cell := h.cells[a]?

def alloc (h : Heap) (c : Cell) : Value × Heap := (.ref h.cells.size, { h with cells := h.cells.push c })

def newObject (h : Heap) (cls : String) : Value × Heap := (.object h.objects cls, { h with objects := h.objects + 1 })

def write (h : Heap) (a : Nat) (c : Cell) : Heap := { h with cells := h.cells.setIfInBounds a c }

def tag (h : Heap) : Value → Tag
  | .null => .nothing
  | .int _ => .int
  | .bool _ => .bool
  | .string _ => .string
  | .object _ _ => .object
  | .array _ => .array
  | .ref a =>
    match h.cell? a with
    | some (.record _) => .record
    | _ => .list

/-- The place and the elements of a list. -/
def list? (h : Heap) : Value → Option (Nat × List Value)
  | .ref a =>
    match h.cell? a with
    | some (.list es) => some (a, es)
    | _ => none
  | _ => none

/-- The place and the fields of a record. -/
def record? (h : Heap) : Value → Option (Nat × List (String × Value))
  | .ref a =>
    match h.cell? a with
    | some (.record fs) => some (a, fs)
    | _ => none
  | _ => none

/-- Replaces one element of a list. -/
def setElem (h : Heap) (a : Nat) (es : List Value) (i : Nat) (v : Value) : Heap := h.write a (.list (es.set i v))

/-- Replaces the value of the field at an offset. -/
def setFieldAt (h : Heap) (a : Nat) (fs : List (String × Value)) (i : Nat) (v : Value) : Heap :=
  h.write a (.record (fs.modify i fun f => (f.1, v)))

end Heap
end WhileStack
