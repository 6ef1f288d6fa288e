import WhileStack.Machine.Ty
import WhileStack.Text.Quoted

/-! Instructions of the stack machine, their text and their effect on the depth of the stack. -/
namespace WhileStack.Machine

/-- The calling convention of a method. A static method has no receiver, any other takes one in slot 0. -/
structure Signature where
  name : String
  params : List Ty
  ret : Ty
  isStatic : Bool
deriving DecidableEq, Repr

namespace Signature

def descriptor (s : Signature) : String :=
  "(" ++ String.join (s.params.map Ty.descriptor) ++ ")" ++ s.ret.descriptor

def text (s : Signature) : String := s.name ++ s.descriptor

end Signature

/-- Comparisons of two integers. One without a name never holds. -/
inductive Cond where
  | eq
  | ne
  | lt
  | le
  | gt
  | ge
  | other (number : Int)
deriving DecidableEq, Repr

namespace Cond

def text : Cond → String
  | .eq => "eq"
  | .ne => "ne"
  | .lt => "lt"
  | .le => "le"
  | .gt => "gt"
  | .ge => "ge"
  | .other n => "cond(" ++ toString n ++ ")"

def holds : Cond → Int32 → Int32 → Bool
  | .eq, a, b => a == b
  | .ne, a, b => a != b
  | .lt, a, b => a < b
  | .le, a, b => a ≤ b
  | .gt, a, b => b < a
  | .ge, a, b => b ≤ a
  | .other _, _, _ => false

end Cond

/-- What `ldc` pushes. Hand-made code may leave the constant out. -/
inductive Const where
  | int (n : Int32)
  | bool (b : Bool)
  | string (s : String)
  | missing
deriving DecidableEq, Repr

def Const.text : Const → String
  | .int n => toString n.toInt
  | .bool b => toString b
  | .string s => Text.quote s
  | .missing => "<nil>"

inductive Arith where
  | add
  | sub
  | mul
  | div
  | rem
deriving DecidableEq, Repr

def Arith.mnemonic : Arith → String
  | .add => "iadd"
  | .sub => "isub"
  | .mul => "imul"
  | .div => "idiv"
  | .rem => "irem"

/-- A symbolic branch target. -/
abbrev Label := Int

def labelText (l : Label) : String := "L" ++ toString l

/-- Where a branch goes: a label until labels are resolved (then zero), and an index of the code. -/
structure Dest where
  label : Label
  target : Int
deriving DecidableEq, Repr

namespace Dest

def toLabel (l : Label) : Dest := ⟨l, 0⟩

def toIndex (i : Nat) : Dest := ⟨0, i⟩

def text (d : Dest) : String := if d.label = 0 then toString d.target else labelText d.label

end Dest

inductive Instr where
  /-- Marks a branch target and does nothing. -/
  | mark (label : Label)
  | ldc (value : Const)
  | load (slot : Int) (ty : Ty)
  | store (slot : Int) (ty : Ty)
  /-- Unsets a slot. -/
  | clear (slot : Int)
  | arith (op : Arith)
  /-- Exclusive or; `logical` makes its result a boolean. -/
  | xor (logical : Bool)
  | neg
  | ifeq (dest : Dest)
  | ifne (dest : Dest)
  | ifcmp (cond : Cond) (dest : Dest)
  | goto (dest : Dest)
  | ret (ty : Ty)
  | unreachable
  | new (ty : Ty)
  | call (sig : Signature)
  | print (ty : Ty)
  | pop (ty : Ty)
  | convert (source result : Ty)
  | equals
  | append (ty : Ty)
  | length
  | clone (ty : Ty)
  | newList (elem : Ty) (count : Int)
  | listLoad (elem : Ty)
  | listStore (elem : Ty)
  | newRecord (layout : Ty)
  | getField (name : String) (offset : Int)
  | putField (name : String) (offset : Int)
  | unknown (opcode : Int)
deriving DecidableEq, Repr

abbrev Code := List Instr

namespace Instr

def mnemonic : Instr → String
  | mark _ => "label"
  | ldc _ => "ldc"
  | load _ _ => "load"
  | store _ _ => "store"
  | clear _ => "clear"
  | arith op => op.mnemonic
  | xor _ => "ixor"
  | neg => "ineg"
  | ifeq _ => "ifeq"
  | ifne _ => "ifne"
  | ifcmp _ _ => "if_icmp"
  | goto _ => "goto"
  | ret _ => "return"
  | unreachable => "unreachable"
  | new _ => "new"
  | call _ => "invokevirtual"
  | print _ => "print"
  | pop _ => "pop"
  | convert _ _ => "convert"
  | equals => "equals"
  | append _ => "append"
  | length => "length"
  | clone _ => "clone"
  | newList _ _ => "newlist"
  | listLoad _ => "listload"
  | listStore _ => "liststore"
  | newRecord _ => "newrecord"
  | getField _ _ => "getfield"
  | putField _ _ => "putfield"
  | unknown n => "op(" ++ toString n ++ ")"

def text (i : Instr) : String :=
  match i with
  | mark l => labelText l ++ ":"
  | ldc v => "ldc " ++ v.text
  | load slot t => t.opLetter ++ "load " ++ toString slot
  | store slot t => t.opLetter ++ "store " ++ toString slot
  | clear slot => "clear " ++ toString slot
  | ifeq d => "ifeq " ++ d.text
  | ifne d => "ifne " ++ d.text
  | ifcmp c d => "if_icmp" ++ c.text ++ " " ++ d.text
  | goto d => "goto " ++ d.text
  | ret t => t.opLetter ++ "return"
  | call sig => "invokevirtual " ++ sig.text
  | new t | print t | pop t | append t | clone t | listLoad t | listStore t | newRecord t =>
    i.mnemonic ++ " " ++ t.text
  | convert a b => "convert " ++ a.text ++ " " ++ b.text
  | newList t n => "newlist " ++ t.text ++ " " ++ toString n
  | getField n k | putField n k => i.mnemonic ++ " " ++ n ++ ":" ++ toString k
  | arith _ | xor _ | neg | unreachable | equals | length | unknown _ => i.mnemonic

/-- The branch target of an instruction that has one. -/
def dest? : Instr → Option Dest
  | ifeq d => some d
  | ifne d => some d
  | ifcmp _ d => some d
  | goto d => some d
  | _ => none

def setDest (d : Dest) : Instr → Instr
  | ifeq _ => ifeq d
  | ifne _ => ifne d
  | ifcmp c _ => ifcmp c d
  | goto _ => goto d
  | i => i

def isMark : Instr → Bool
  | mark _ => true
  | _ => false

def isBranch (i : Instr) : Bool := i.dest?.isSome

def isReturn : Instr → Bool
  | ret _ => true
  | _ => false

/-- Whether the next instruction may follow. -/
def fallsThrough : Instr → Bool
  | goto _ => false
  | ret _ => false
  | unreachable => false
  | _ => true

/-- How many values an instruction takes from the stack. -/
def pops : Instr → Nat
  | mark _ | goto _ | unreachable | clear _ | ldc _ | load _ _ | new _ | unknown _ => 0
  | store _ _ | ifeq _ | ifne _ | print _ | pop _ | neg | convert _ _ | length | clone _ | getField _ _ => 1
  | arith _ | xor _ | equals | append _ | listLoad _ | ifcmp _ _ | putField _ _ => 2
  | listStore _ => 3
  | ret t => t.width
  | call sig => sig.params.length + 1
  | newList _ n => n.toNat
  | newRecord t => t.fields.length

/-- How many values an instruction asks for. Hand-made code may give a list a negative length. -/
def takes : Instr → Int
  | newList _ n => n
  | i => i.pops

/-- How many values an instruction leaves on the stack. -/
def pushes : Instr → Nat
  | mark _ | goto _ | unreachable | clear _ | store _ _ | ifeq _ | ifne _ | print _ | pop _ | ifcmp _ _
  | putField _ _ | listStore _ | ret _ | unknown _ => 0
  | ldc _ | load _ _ | new _ | neg | convert _ _ | length | clone _ | getField _ _ | arith _ | xor _ | equals
  | append _ | listLoad _ | newList _ _ | newRecord _ => 1
  | call sig => sig.ret.width

end Instr

/-- One line for each instruction; marks are not numbered. -/
def listingFrom : Nat → Code → String
  | _, [] => ""
  | n, i :: rest =>
    if i.isMark then i.text ++ "\n" ++ listingFrom n rest
    else toString n ++ ": " ++ i.text ++ "\n" ++ listingFrom (n + 1) rest

def listing (code : Code) : String := listingFrom 0 code

end WhileStack.Machine
