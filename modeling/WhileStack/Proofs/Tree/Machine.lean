import WhileStack.Machine.Run
import WhileStack.Proofs.Tree.Basic

/-! The stack machine over trees. A list or record on the stack is either a tree of its own or a place inside a
local variable; there is no heap. Steps that compiled code never takes are left out. -/
namespace WhileStack.OnTrees
open Machine (Program Method Instr Signature Const Arith Dest intOf?)

inductive Operand where
  | own (t : Tree)
  /-- What a path into a local variable leads to. -/
  | place (slot : Nat) (path : List Nat)

namespace Operand

/-- The tree that an operand stands for. -/
def read (locals : List Tree) : Operand → Option Tree
  | own t => some t
  | place slot path => locals[slot]?.bind fun t => t.get? path

/-- What is found at a path into a variable: a place if it is a list or record, else its value. -/
def found (slot : Nat) (path : List Nat) (t : Tree) : Operand := if t.isNode then place slot path else own t

/-- The child of an operand, given its tree. -/
def child : Operand → Nat → Tree → Operand
  | own _, _, t => own t
  | place slot path, i, t => found slot (path ++ [i]) t

/-- The local variables after a child of an operand is replaced. -/
def write (locals : List Tree) : Operand → Nat → Tree → List Tree
  | own _, _, _ => locals
  | place slot path, i, t => locals.modify slot fun s => s.put (path ++ [i]) t

end Operand

open Operand (own)

/-- What an instruction reads and changes besides the program counter. -/
structure Body where
  locals : List Tree
  stack : List Operand
  /-- How many objects have been made. -/
  objects : Nat
  out : String

def constant? : Const → Option Value
  | .int n => some (.int n)
  | .bool b => some (.bool b)
  | .string s => some (.string s)
  | .missing => none

def calculate (function : String) : Arith → Int32 → Int32 → Except Fault Int32
  | .add, a, b => .ok (a + b)
  | .sub, a, b => .ok (a - b)
  | .mul, a, b => .ok (a * b)
  | .div, a, b => divide function a b
  | .rem, a, b => remainder function a b

theorem arithmetic_apply (f : Machine.Frame) (op : Arith) (a b : Int32) (st : Store) :
    Machine.arithmetic f op a b st = match calculate f.method.name op a b with
      | .ok r => .ok r st
      | .error e => .error (.fault e) st := by
  have hd : Machine.arithmetic f op a b = Machine.liftFault (calculate f.method.name op a b) := by cases op <;> rfl
  rw [hd]
  cases calculate f.method.name op a b with
  | ok r => rfl
  | error e => rfl

/-- Instructions that are followed by the next one. Those that write to variables find nothing else on the stack, so
that no place on it can change its meaning. -/
inductive Act (function : String) : Instr → Body → Body → Prop where
  | ldc {c v L S k o} : constant? c = some v → Act function (.ldc c) ⟨L, S, k, o⟩ ⟨L, own (.leaf v) :: S, k, o⟩
  | load {slot : Nat} {ty t L S k o} : L[slot]? = some t → t ≠ .null →
    Act function (.load slot ty) ⟨L, S, k, o⟩ ⟨L, .found slot [] t :: S, k, o⟩
  | store {slot : Nat} {ty t L k o} : slot < L.length →
    Act function (.store slot ty) ⟨L, [own t], k, o⟩ ⟨L.set slot t, [], k, o⟩
  | clear {slot : Nat} {L k o} : slot < L.length → Act function (.clear slot) ⟨L, [], k, o⟩ ⟨L.set slot .null, [], k, o⟩
  | arith {op a b r L S k o} : calculate function op a b = .ok r →
    Act function (.arith op) ⟨L, own (.leaf (.int b)) :: own (.leaf (.int a)) :: S, k, o⟩
      ⟨L, own (.leaf (.int r)) :: S, k, o⟩
  | not {b L S k o} :
    Act function (.xor true) ⟨L, own (.leaf (.int 1)) :: own (.leaf (.bool b)) :: S, k, o⟩
      ⟨L, own (.leaf (.bool !b)) :: S, k, o⟩
  | neg {n L S k o} :
    Act function .neg ⟨L, own (.leaf (.int n)) :: S, k, o⟩ ⟨L, own (.leaf (.int (-n))) :: S, k, o⟩
  | new {ty L S k o} : Act function (.new ty) ⟨L, S, k, o⟩ ⟨L, own (.leaf (.object k ty.cls)) :: S, k + 1, o⟩
  | print {ty t L S k o} : Act function (.print ty) ⟨L, own t :: S, k, o⟩ ⟨L, S, k, o ++ t.format ++ "\n"⟩
  | pop {ty t L S k o} : Act function (.pop ty) ⟨L, own t :: S, k, o⟩ ⟨L, S, k, o⟩
  | toText {source t L S k o} :
    Act function (.convert source .string) ⟨L, own t :: S, k, o⟩ ⟨L, own (.leaf (.string t.format)) :: S, k, o⟩
  | project {source fields t fs u L S k o} : t.record? = some fs → Tree.project fs (fields.map Prod.fst) = .ok u →
    Act function (.convert source (.record fields)) ⟨L, own t :: S, k, o⟩ ⟨L, own u :: S, k, o⟩
  | equals {t u L S k o} :
    Act function .equals ⟨L, own u :: own t :: S, k, o⟩ ⟨L, own (.leaf (.bool (t.equal u))) :: S, k, o⟩
  | append {ty t u s L S k o} : t.append u = .ok s →
    Act function (.append ty) ⟨L, own u :: own t :: S, k, o⟩ ⟨L, own s :: S, k, o⟩
  | length {t n L S k o} : t.length = .ok n →
    Act function .length ⟨L, own t :: S, k, o⟩ ⟨L, own (.leaf (.int n)) :: S, k, o⟩
  | clone {ty x t L S k o} : x.read L = some t → Act function (.clone ty) ⟨L, x :: S, k, o⟩ ⟨L, own t :: S, k, o⟩
  | newList {ty count ts L S k o} : (ts.length : Int) = count →
    Act function (.newList ty count) ⟨L, (ts.map own).reverse ++ S, k, o⟩ ⟨L, own (.node .list ts) :: S, k, o⟩
  | newRecord {fs ts L S k o} : ts.length = fs.length →
    Act function (.newRecord (.record fs)) ⟨L, (ts.map own).reverse ++ S, k, o⟩
      ⟨L, own (.node (.record (fs.map Prod.fst)) ts) :: S, k, o⟩
  | listLoad {ty x ts i n t L S k o} : x.read L = some (.node .list ts) → elementAt function ts.length i = .ok n →
    ts[n]? = some t →
    Act function (.listLoad ty) ⟨L, own (.leaf (.int i)) :: x :: S, k, o⟩ ⟨L, x.child n t :: S, k, o⟩
  | listStore {ty x ts i n t L k o} : x.read L = some (.node .list ts) → elementAt function ts.length i = .ok n →
    Act function (.listStore ty) ⟨L, [own (.leaf (.int i)), x, own t], k, o⟩ ⟨x.write L n t, [], k, o⟩
  | getField {name} {n : Nat} {x ns ts t L S k o} : x.read L = some (.node (.record ns) ts) → ns[n]? = some name →
    ts[n]? = some t → Act function (.getField name n) ⟨L, x :: S, k, o⟩ ⟨L, x.child n t :: S, k, o⟩
  | putField {name} {n : Nat} {x ns ts t L k o} : x.read L = some (.node (.record ns) ts) → ns[n]? = some name →
    Act function (.putField name n) ⟨L, [x, own t], k, o⟩ ⟨x.write L n t, [], k, o⟩

/-- Where control goes: to the given place, or to the next instruction. -/
inductive Jump : Instr → List Operand → Option Dest → List Operand → Prop where
  | goto {d S} : Jump (.goto d) S (some d) S
  | ifeq {d v n S} : intOf? v = some n → Jump (.ifeq d) (own (.leaf v) :: S) (if n = 0 then some d else none) S
  | ifne {d v n S} : intOf? v = some n → Jump (.ifne d) (own (.leaf v) :: S) (if n = 0 then none else some d) S
  | ifcmp {c d v w m n S} : intOf? v = some m → intOf? w = some n →
    Jump (.ifcmp c d) (own (.leaf w) :: own (.leaf v) :: S) (if c.holds m n then some d else none) S

inductive Fails (function : String) : Instr → Body → Fault → Prop where
  | unset {slot : Nat} {ty L S k o} : L[slot]? = some .null →
    Fails function (.load slot ty) ⟨L, S, k, o⟩ ⟨.uninitialized, function, .slot slot⟩
  | arith {op a b e L S k o} : calculate function op a b = .error e →
    Fails function (.arith op) ⟨L, own (.leaf (.int b)) :: own (.leaf (.int a)) :: S, k, o⟩ e
  | listLoad {ty x ts i e L S k o} : x.read L = some (.node .list ts) → elementAt function ts.length i = .error e →
    Fails function (.listLoad ty) ⟨L, own (.leaf (.int i)) :: x :: S, k, o⟩ e
  | listStore {ty x ts i t e L k o} : x.read L = some (.node .list ts) → elementAt function ts.length i = .error e →
    Fails function (.listStore ty) ⟨L, [own (.leaf (.int i)), x, own t], k, o⟩ e
  | unreachable {b} : Fails function .unreachable b ⟨.missingReturn, function, .nothing⟩

structure Frame where
  method : Method
  locals : List Tree
  stack : List Operand
  pc : Int

structure Pending where
  frame : Frame
  sig : Signature

structure State where
  out : String
  objects : Nat
  frame : Frame
  callers : List Pending

inductive Next where
  | running (s : State)
  | finished (out : String)
  | fault (out : String) (f : Fault)

def Frame.instr? (f : Frame) : Option Instr := if f.pc < 0 then none else f.method.code[f.pc.toNat]?

/-- The local variables of a method that is called with the given arguments. -/
def activate (m : Method) (args : List Tree) : Frame :=
  ⟨m, args ++ List.replicate (m.maxLocals - args.length) .null, [], 0⟩

inductive Step (p : Program) : State → Next → Prop where
  | act {o k f cs i b} : f.instr? = some i → Act f.method.name i ⟨f.locals, f.stack, k, o⟩ b →
    Step p ⟨o, k, f, cs⟩ (.running ⟨b.out, b.objects, ⟨f.method, b.locals, b.stack, f.pc + 1⟩, cs⟩)
  | jump {o k f cs i d S} : f.instr? = some i → Jump i f.stack d S →
    Step p ⟨o, k, f, cs⟩ (.running ⟨o, k, ⟨f.method, f.locals, S, (d.map Dest.target).getD (f.pc + 1)⟩, cs⟩)
  | fails {o k f cs i e} : f.instr? = some i → Fails f.method.name i ⟨f.locals, f.stack, k, o⟩ e →
    Step p ⟨o, k, f, cs⟩ (.fault o e)
  | call {o k f cs sig m id cls args S} : f.instr? = some (.call sig) →
    f.stack = ((Tree.leaf (.object id cls) :: args).map own).reverse ++ S → args.length = sig.params.length →
    p.method? sig.name = some m → cs.length + 1 < maxCallDepth → args.length < m.maxLocals →
    Step p ⟨o, k, f, cs⟩ (.running ⟨o, k, activate m (.leaf (.object id cls) :: args),
      ⟨⟨f.method, f.locals, S, f.pc + 1⟩, sig⟩ :: cs⟩)
  | tooDeep {o k f cs sig m id cls args S} : f.instr? = some (.call sig) →
    f.stack = ((Tree.leaf (.object id cls) :: args).map own).reverse ++ S → args.length = sig.params.length →
    p.method? sig.name = some m → maxCallDepth ≤ cs.length + 1 →
    Step p ⟨o, k, f, cs⟩ (.fault o ⟨.callDepth, m.name, .depth (cs.length + 1)⟩)
  | finish {o k f ty} : f.instr? = some (.ret ty) → ty.width ≤ f.stack.length →
    Step p ⟨o, k, f, []⟩ (.finished o)
  | giveNothing {o k f ty g sig cs} : f.instr? = some (.ret ty) → ty.width ≤ f.stack.length → sig.ret.isVoid = true →
    Step p ⟨o, k, f, ⟨g, sig⟩ :: cs⟩ (.running ⟨o, k, g, cs⟩)
  | give {o k f ty g sig cs t S} : f.instr? = some (.ret ty) → ty.isVoid = false → f.stack = own t :: S → t ≠ .null →
    sig.ret.isVoid = false →
    Step p ⟨o, k, f, ⟨g, sig⟩ :: cs⟩ (.running ⟨o, k, ⟨g.method, g.locals, own t :: g.stack, g.pc⟩, cs⟩)

end WhileStack.OnTrees
