import WhileStack.Value.Basic

/-! Operations on values that follow references. The number of cells bounds how deep a structure without cycles
goes. -/
namespace WhileStack.Heap

/-- What `print` writes, for structures of the given depth at most. -/
def formatTo (h : Heap) : Nat → Value → String
  | _, .null => "null"
  | _, .int n => toString n.toInt
  | _, .bool b => toString b
  | _, .string s => s
  | _, .object _ cls => cls
  | _, .array es => "[" ++ ", ".intercalate es ++ "]"
  | 0, .ref _ => ""
  | depth + 1, .ref a =>
    match h.cell? a with
    | some (.list es) => "[" ++ ", ".intercalate (es.map (formatTo h depth)) ++ "]"
    | some (.record fs) => "\x7b" ++ ",".intercalate (fs.map fun f => f.1 ++ ":" ++ formatTo h depth f.2) ++ "\x7d"
    | none => ""

def format (h : Heap) (v : Value) : String := h.formatTo h.cells.size v

/-- Equality of structure. Objects are equal to themselves only; argument vectors and missing values to nothing. -/
def equalTo (h : Heap) : Nat → Value → Value → Bool
  | _, .int m, .int n => m == n
  | _, .bool b, .bool c => b == c
  | _, .string s, .string t => s == t
  | _, .object i _, .object k _ => i == k
  | depth + 1, .ref a, .ref b =>
    match h.cell? a, h.cell? b with
    | some (.list es), some (.list fs) =>
      es.length == fs.length && (es.zip fs).all fun p => equalTo h depth p.1 p.2
    | some (.record es), some (.record fs) =>
      es.length == fs.length && (es.zip fs).all fun p => p.1.1 == p.2.1 && equalTo h depth p.1.2 p.2.2
    | _, _ => false
  | _, _, _ => false

def equal (h : Heap) (a b : Value) : Bool := h.equalTo h.cells.size a b

/-- Copies values from left to right. -/
def copyAll (copy : Heap → Value → Value × Heap) : Heap → List Value → List Value × Heap
  | h, [] => ([], h)
  | h, v :: vs =>
    let (w, h) := copy h v
    let (ws, h) := copyAll copy h vs
    (w :: ws, h)

/-- A copy that shares no list or record with anything else. -/
def copyTo : Nat → Heap → Value → Value × Heap
  | depth + 1, h, .ref a =>
    match h.cell? a with
    | some (.list es) =>
      let (es, h) := copyAll (copyTo depth) h es
      h.alloc (.list es)
    | some (.record fs) =>
      let (vs, h) := copyAll (copyTo depth) h (fs.map Prod.snd)
      h.alloc (.record ((fs.map Prod.fst).zip vs))
    | none => (.ref a, h)
  | _, h, v => (v, h)

def clone (h : Heap) (v : Value) : Value × Heap := copyTo h.cells.size h v

def cloneAll (h : Heap) (vs : List Value) : List Value × Heap := copyAll (copyTo h.cells.size) h vs

end Heap

/-- Why an operation does not apply to its operands. -/
inductive ValueError where
  | appendToString
  | appendToList
  | appendTo (tag : Tag)
  | lengthOf (tag : Tag)
  | noField (name : String)
deriving DecidableEq, Repr

def ValueError.message : ValueError → String
  | .appendToString => "cannot append " ++ Tag.string.text ++ " to string"
  | .appendToList => "cannot append " ++ Tag.list.text ++ " to list"
  | .appendTo t => "cannot append to " ++ t.text
  | .lengthOf t => "length of " ++ t.text
  | .noField n => "record has no field " ++ n

namespace Heap

/-- The values of the named fields, in the given order. -/
def selectFields (fs : List (String × Value)) : List String → Except ValueError (List Value)
  | [] => .ok []
  | n :: rest =>
    match fs.lookup n with
    | none => .error (.noField n)
    | some v => do .ok (v :: (← selectFields fs rest))

/-- A new record that holds copies of the named fields. -/
def project (h : Heap) (fs : List (String × Value)) (names : List String) : Except ValueError (Value × Heap) := do
  let vs ← selectFields fs names
  let (vs, h) := h.cloneAll vs
  .ok (h.alloc (.record (names.zip vs)))

/-- Two strings, or copies of two lists, one behind the other. -/
def append (h : Heap) (a b : Value) : Except ValueError (Value × Heap) :=
  match a with
  | .string s =>
    match b with
    | .string t => .ok (.string (s ++ t), h)
    | _ => .error .appendToString
  | _ =>
    match h.list? a, h.list? b with
    | some (_, es), some (_, fs) =>
      let (vs, h) := h.cloneAll (es ++ fs)
      .ok (h.alloc (.list vs))
    | some _, none => .error .appendToList
    | none, _ => .error (.appendTo (h.tag a))

/-- The number of 16-bit units that a text takes. -/
def units16 (s : String) : Nat := s.toList.foldl (fun n c => n + if c.toNat < 0x10000 then 1 else 2) 0

/-- The number of elements of a list, or of 16-bit units of a string. -/
def length (h : Heap) (v : Value) : Except ValueError Int32 :=
  match v with
  | .string s => .ok (Int32.ofNat (units16 s))
  | _ =>
    match h.list? v with
    | some (_, es) => .ok (Int32.ofNat es.length)
    | none => .error (.lengthOf (h.tag v))

/-- The first field of a name. -/
def fieldValue? (fs : List (String × Value)) (name : String) : Option Value := fs.lookup name

/-- Replaces the first field of a name, if there is one. -/
def setField? (h : Heap) (a : Nat) (fs : List (String × Value)) (name : String) (v : Value) : Option Heap :=
  (fs.findIdx? fun f => f.1 = name).map fun i => h.setFieldAt a fs i v

end Heap

/-- The heap of a running program and what it has printed. -/
structure Store where
  heap : Heap
  out : String
deriving DecidableEq, Repr

namespace Store

def empty : Store := ⟨Heap.empty, ""⟩

def print (s : Store) (v : Value) : Store := { s with out := s.out ++ s.heap.format v ++ "\n" }

end Store
end WhileStack
