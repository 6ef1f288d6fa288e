import WhileStack.Machine.Program
import WhileStack.Value.Fault
import WhileStack.Value.Heap

/-! One step of the stack machine. Calls push the running frame onto the callers; booleans count as the integers
0 and 1. -/
namespace WhileStack.Machine

/-- What is wrong with code that the machine cannot go on with. -/
inductive CodeCause where
  | pcOutside (pc : Int)
  | underflow (need depth : Nat)
  | unresolvedLabel (label : Label)
  | missingConstant
  | slotOutside (slot : Int) (count : Nat)
  | notInt (operand : Nat) (tag : Tag)
  | notRecord (tag : Tag)
  | noConversion (source result : Ty)
  | badOperand (error : ValueError)
  | indexOn (tag : Tag)
  | badIndex (tag : Tag)
  | accessOn (tag : Tag)
  | noFieldAt (name : String) (offset : Int)
  | unknownOpcode (text : String)
  /-- A list of a negative length, for which no operands can be cut from the stack. -/
  | negativeCount (depth : Nat) (count : Int)
  | noMethod (sig : Signature)
  | badReceiver (tag : Tag)
  | noResult (sig : Signature)
deriving DecidableEq, Repr

def CodeCause.message : CodeCause → String
  | .pcOutside pc => "pc " ++ toString pc ++ " outside the code"
  | .underflow need d => "stack underflow: need " ++ toString need ++ ", have " ++ toString d
  | .unresolvedLabel l => "unresolved label " ++ labelText l
  | .missingConstant => "constant of Go type <nil>"
  | .slotOutside slot n => "slot " ++ toString slot ++ " outside " ++ toString n ++ " locals"
  | .notInt i t => "operand " ++ toString i ++ " is " ++ t.text ++ ", not int"
  | .notRecord t => "convert of " ++ t.text ++ " to a record"
  | .noConversion a b => "no conversion from " ++ a.text ++ " to " ++ b.text
  | .badOperand e => e.message
  | .indexOn t => "indexing " ++ t.text
  | .badIndex t => "index is " ++ t.text
  | .accessOn t => "field access on " ++ t.text
  | .noFieldAt n k => "record has no field " ++ n ++ " at offset " ++ toString k
  | .unknownOpcode t => "unknown opcode " ++ t
  | .negativeCount d n => "slice bounds out of range [" ++ toString (d - n) ++ ":" ++ toString d ++ "]"
  | .noMethod sig => "no method " ++ sig.text
  | .badReceiver t => "receiver is " ++ t.text
  | .noResult sig => sig.text ++ " returned no value"

/-- One activation of a method. -/
structure Frame where
  method : Method
  locals : Array Value
  /-- The operands, the top first. -/
  stack : List Value
  pc : Int
deriving DecidableEq, Repr

/-- Why a run ended early. -/
inductive Stop where
  | fault (f : Fault)
  | badCode (function : String) (index : Int) (instr : Option Instr) (cause : CodeCause)
  | tooManyArgs (sig : Signature) (given slots : Nat)
  | noEntry
  | noArgVector (sig : Signature)
  | noZero (sig : Signature) (ty : Ty)
deriving DecidableEq, Repr

def noZeroMessage (ty : Ty) : String := "no zero value for " ++ ty.text

def Stop.message : Stop → String
  | .fault f => f.message
  | .badCode f i instr cause =>
    f ++ " at " ++ toString i ++ " (" ++ (instr.map Instr.text).getD "" ++ "): " ++ cause.message
  | .tooManyArgs sig given slots =>
    sig.text ++ ": " ++ toString given ++ " arguments do not fit in " ++ toString slots ++ " locals"
  | .noEntry => "program has no entry point"
  | .noArgVector sig => "entry point " ++ sig.text ++ " does not take an argument vector"
  | .noZero sig ty => "entry point " ++ sig.text ++ ": " ++ noZeroMessage ty

namespace Frame

def push (f : Frame) (v : Value) : Frame := { f with stack := v :: f.stack }

def jump (f : Frame) (d : Dest) : Frame := { f with pc := d.target }

def instrAt? (f : Frame) (i : Int) : Option Instr := if i < 0 then none else f.method.code[i.toNat]?

/-- The index of a slot that the frame has. -/
def slot? (f : Frame) (slot : Int) : Option Nat :=
  if 0 ≤ slot ∧ slot < f.locals.size then some slot.toNat else none

def setLocal (f : Frame) (i : Nat) (v : Value) : Frame := { f with locals := f.locals.setIfInBounds i v }

/-- Bad code at the instruction that was fetched last. -/
def badCode (f : Frame) (cause : CodeCause) : Stop :=
  .badCode f.method.name (f.pc - 1) (f.instrAt? (f.pc - 1)) cause

def fault (f : Frame) (kind : FaultKind) (detail : FaultDetail) : Stop := .fault ⟨kind, f.method.name, detail⟩

end Frame

abbrev Exec := EStateM Stop Store

def fail {α : Type} (f : Frame) (cause : CodeCause) : Exec α := throw (f.badCode cause)

def liftFault {α : Type} (r : Except Fault α) : Exec α :=
  match r with
  | .ok a => pure a
  | .error e => throw (.fault e)

/-- An operand as an integer. -/
def intOf? : Value → Option Int32
  | .int n => some n
  | .bool b => some (if b then 1 else 0)
  | _ => none

/-- The operand of the given number as an integer. -/
def needInt (f : Frame) (operand : Nat) (v : Value) : Exec Int32 :=
  match intOf? v with
  | some n => pure n
  | none => do fail f (.notInt operand ((← get).heap.tag v))

def arithmetic (f : Frame) (op : Arith) (a b : Int32) : Exec Int32 :=
  match op with
  | .add => pure (a + b)
  | .sub => pure (a - b)
  | .mul => pure (a * b)
  | .div => liftFault (divide f.method.name a b)
  | .rem => liftFault (remainder f.method.name a b)

/-- Runs an operation on the heap that may not apply to its operands. -/
def onHeap (f : Frame) (op : Heap → Except ValueError (Value × Heap)) : Exec Value := do
  match op (← get).heap with
  | .ok (v, h) => modifyGet fun s => (v, { s with heap := h })
  | .error e => fail f (.badOperand e)

def convert (f : Frame) (source result : Ty) (v : Value) : Exec Value :=
  match result with
  | .string => do return .string ((← get).heap.format v)
  | .record fields => do
    match (← get).heap.record? v with
    | some (_, fs) => onHeap f fun h => h.project fs (fields.map Prod.fst)
    | none => fail f (.notRecord ((← get).heap.tag v))
  | _ => fail f (.noConversion source result)

/-- The list that an instruction indexes: its address, its elements, and the place of the element. -/
def element (f : Frame) (list index : Value) : Exec (Nat × List Value × Nat) := do
  match (← get).heap.list? list, intOf? index with
  | none, _ => fail f (.indexOn ((← get).heap.tag list))
  | some _, none => fail f (.badIndex ((← get).heap.tag index))
  | some (a, es), some i => return (a, es, ← liftFault (elementAt f.method.name es.length i))

/-- The record that an instruction reads or writes: its address, its fields, and the offset, which must be that
of the name. -/
def fieldAt (f : Frame) (v : Value) (name : String) (offset : Int) : Exec (Nat × List (String × Value) × Nat) := do
  match (← get).heap.record? v with
  | none => fail f (.accessOn ((← get).heap.tag v))
  | some (a, fs) =>
    if 0 ≤ offset ∧ fs[offset.toNat]?.map Prod.fst = some name then return (a, fs, offset.toNat)
    else fail f (.noFieldAt name offset)

def withSlot (f : Frame) (slot : Int) (k : Nat → Exec Frame) : Exec Frame :=
  match f.slot? slot with
  | some i => k i
  | none => fail f (.slotOutside slot f.locals.size)

def constant (f : Frame) : Const → Exec Value
  | .int n => pure (.int n)
  | .bool b => pure (.bool b)
  | .string s => pure (.string s)
  | .missing => fail f .missingConstant

/-- Carries out an instruction that stays in its frame. The operands have been taken off the stack, the lowest
first, and the program counter is at the next instruction. -/
def perform (f : Frame) (i : Instr) (operands : List Value) : Exec Frame :=
  match i, operands with
  | .mark l, _ => fail f (.unresolvedLabel l)
  | .ldc c, _ => do return f.push (← constant f c)
  | .load slot _, _ => withSlot f slot fun k =>
    match f.locals.getD k .null with
    | .null => throw (f.fault .uninitialized (.slot slot))
    | v => pure (f.push v)
  | .store slot _, v :: _ => withSlot f slot fun k => pure (f.setLocal k v)
  | .clear slot, _ => withSlot f slot fun k => pure (f.setLocal k .null)
  | .arith op, a :: b :: _ => do
    let m ← needInt f 0 a
    let n ← needInt f 1 b
    return f.push (.int (← arithmetic f op m n))
  | .xor logical, a :: b :: _ => do
    let m ← needInt f 0 a
    let n ← needInt f 1 b
    let r := m ^^^ n
    return f.push (if logical then .bool (r != 0) else .int r)
  | .neg, a :: _ => do return f.push (.int (-(← needInt f 0 a)))
  | .ifeq d, a :: _ => do return if (← needInt f 0 a) = 0 then f.jump d else f
  | .ifne d, a :: _ => do return if (← needInt f 0 a) = 0 then f else f.jump d
  | .ifcmp c d, a :: b :: _ => do
    let m ← needInt f 0 a
    let n ← needInt f 1 b
    return if c.holds m n then f.jump d else f
  | .goto d, _ => pure (f.jump d)
  | .new t, _ => do
    let v ← modifyGet fun s => let (v, h) := s.heap.newObject t.cls; (v, { s with heap := h })
    return f.push v
  | .print _, v :: _ => do
    modify fun s => s.print v
    return f
  | .pop _, _ => pure f
  | .convert source result, v :: _ => do return f.push (← convert f source result v)
  | .equals, a :: b :: _ => do return f.push (.bool ((← get).heap.equal a b))
  | .append _, a :: b :: _ => do return f.push (← onHeap f fun h => h.append a b)
  | .length, v :: _ => do
    match (← get).heap.length v with
    | .ok n => return f.push (.int n)
    | .error e => fail f (.badOperand e)
  | .clone _, v :: _ => do return f.push (← onHeap f fun h => .ok (h.clone v))
  | .newList _ n, vs =>
    if n < 0 then fail f (.negativeCount f.stack.length n)
    else do return f.push (← onHeap f fun h => .ok (h.alloc (.list vs)))
  | .listLoad _, l :: k :: _ => do
    let (_, es, n) ← element f l k
    return f.push (es.getD n .null)
  | .listStore _, v :: l :: k :: _ => do
    let (a, es, n) ← element f l k
    modify fun s => { s with heap := s.heap.setElem a es n v }
    return f
  | .newRecord t, vs => do
    return f.push (← onHeap f fun h => .ok (h.alloc (.record ((t.fields.map Prod.fst).zip vs))))
  | .getField name offset, r :: _ => do
    let (_, fs, n) ← fieldAt f r name offset
    return f.push ((fs[n]?.map Prod.snd).getD .null)
  | .putField name offset, v :: r :: _ => do
    let (a, fs, n) ← fieldAt f r name offset
    modify fun s => { s with heap := s.heap.setFieldAt a fs n v }
    return f
  | i, _ => fail f (.unknownOpcode i.mnemonic)

/-- A frame that waits for a call, with the signature it called. -/
structure Pending where
  frame : Frame
  sig : Signature
deriving DecidableEq, Repr

structure State where
  store : Store
  /-- How many instructions have been fetched. -/
  steps : Nat
  frame : Frame
  callers : List Pending
deriving DecidableEq, Repr

inductive Next where
  | running (s : State)
  | finished (store : Store) (steps : Nat)
  | stopped (store : Store) (steps : Nat) (why : Stop)

/-- A frame at the start of a method. -/
def activate (m : Method) (args : List Value) : Frame :=
  ⟨m, (args ++ List.replicate (m.maxLocals - args.length) Value.null).toArray, [], 0⟩

/-- The checks in front of a call, with `depth` activations open. -/
def enter (m : Method) (args : List Value) (depth : Nat) : Except Stop Frame :=
  if maxCallDepth ≤ depth then .error (.fault ⟨.callDepth, m.name, .depth depth⟩)
  else if m.maxLocals < args.length then .error (.tooManyArgs m.sig args.length m.maxLocals)
  else .ok (activate m args)

/-- The frame of a called method. The receiver comes first among the operands. -/
def invoke (p : Program) (f : Frame) (sig : Signature) (operands : List Value) (depth : Nat) (h : Heap) :
    Except Stop Frame :=
  match p.method? sig.name, operands with
  | none, _ => .error (f.badCode (.noMethod sig))
  | some m, .object _ _ :: _ => enter m operands depth
  | some _, vs => .error (f.badCode (.badReceiver (h.tag (vs.headD Value.null))))

/-- Goes back to the caller with a result; the last return ends the run. -/
def giveBack (v : Value) (store : Store) (steps : Nat) : List Pending → Next
  | [] => .finished store steps
  | ⟨f, sig⟩ :: rest =>
    if sig.ret.isVoid then .running ⟨store, steps, f, rest⟩
    else match v with
      | .null => .stopped store steps (f.badCode (.noResult sig))
      | v => .running ⟨store, steps, f.push v, rest⟩

def step (p : Program) : State → Next
  | ⟨store, steps, f, callers⟩ =>
    match f.instrAt? f.pc with
    | none => .stopped store steps (f.badCode (.pcOutside f.pc))
    | some i =>
      let steps := steps + 1
      let operands := (f.stack.take i.pops).reverse
      let g : Frame := { f with stack := f.stack.drop i.pops, pc := f.pc + 1 }
      if f.stack.length < i.pops then
        .stopped store steps ({ f with pc := f.pc + 1 }.badCode (.underflow i.pops f.stack.length))
      else match i with
        | .ret _ => giveBack (operands.headD Value.null) store steps callers
        | .unreachable => .stopped store steps (g.fault .missingReturn .nothing)
        | .call sig =>
          match invoke p g sig operands (callers.length + 1) store.heap with
          | .ok callee => .running ⟨store, steps, callee, ⟨g, sig⟩ :: callers⟩
          | .error e => .stopped store steps e
        | i =>
          match perform g i operands store with
          | .ok g store => .running ⟨store, steps, g, callers⟩
          | .error e store => .stopped store steps e

end WhileStack.Machine
