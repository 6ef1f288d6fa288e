import WhileStack.Proofs.Exec
import WhileStack.Proofs.Machine.Step

/-! What an instruction that stays in its frame does to the frame: it leaves as many values as it pushes and goes to
its branch target or to the next instruction. -/
namespace WhileStack.Machine

/-- Causes that concern the flow of control or the depth of the stack, not the operands. -/
def CodeCause.isControl : CodeCause → Bool
  | .pcOutside _ => true
  | .underflow _ _ => true
  | .unresolvedLabel _ => true
  | _ => false

def Stop.isControl : Stop → Bool
  | .badCode _ _ _ cause => cause.isControl
  | _ => false

/-- A computation gives results of one kind only, and does not stop for its control. -/
def Steady {α : Type} (x : Exec α) (Q : α → Prop) : Prop :=
  ∀ st, match x st with
    | .ok a _ => Q a
    | .error e _ => e.isControl = false

namespace Steady
variable {α β : Type} {Q : α → Prop} {R : β → Prop}

theorem pure {a : α} (h : Q a) : Steady (pure a) Q := fun _ => h

theorem throw {e : Stop} (h : e.isControl = false) : Steady (throw e : Exec α) Q := fun _ => h

theorem fail {f : Frame} {cause : CodeCause} (h : cause.isControl = false) : Steady (fail f cause : Exec α) Q :=
  fun _ => h

theorem bind {x : Exec α} {k : α → Exec β} (h : Steady x Q) (hk : ∀ a, Q a → Steady (k a) R) :
    Steady (x >>= k) R := by
  intro st
  have hx := h st
  rw [Exec.bind_apply]
  cases hr : x st with
  | ok a st' =>
    rw [hr] at hx
    exact hk a hx st'
  | error e st' =>
    rw [hr] at hx
    exact hx

theorem get {k : Store → Exec β} (hk : ∀ st, Steady (k st) R) : Steady (get >>= k) R := fun st => hk st st

theorem modifyGet {g : Store → α × Store} (h : ∀ st, Q (g st).1) : Steady (modifyGet g) Q := fun st => h st

theorem liftFault (r : Except Fault α) : Steady (liftFault r) fun _ => True := by
  cases r with
  | ok a => exact pure trivial
  | error e => exact throw rfl

end Steady

section
variable {f : Frame}

private theorem needInt_steady (n : Nat) (v : Value) : Steady (needInt f n v) fun _ => True := by
  unfold needInt
  split
  · exact .pure trivial
  · exact .get fun _ => .fail rfl

private theorem arithmetic_steady (op : Arith) (a b : Int32) : Steady (arithmetic f op a b) fun _ => True := by
  cases op with
  | add => exact .pure trivial
  | sub => exact .pure trivial
  | mul => exact .pure trivial
  | div => exact .liftFault _
  | rem => exact .liftFault _

private theorem onHeap_steady (op : Heap → Except ValueError (Value × Heap)) : Steady (onHeap f op) fun _ => True := by
  refine .get fun st => ?_
  split
  · exact .modifyGet fun _ => trivial
  · exact .fail rfl

private theorem convert_steady (source result : Ty) (v : Value) : Steady (convert f source result v) fun _ => True := by
  unfold convert
  split
  · exact .get fun _ => .pure trivial
  · refine .get fun st => ?_
    split
    · exact onHeap_steady _
    · exact .get fun _ => .fail rfl
  · exact .fail rfl

private theorem element_steady (l k : Value) : Steady (element f l k) fun _ => True := by
  refine .get fun st => ?_
  split
  · exact .get fun _ => .fail rfl
  · exact .get fun _ => .fail rfl
  · exact (Steady.liftFault _).bind fun _ _ => .pure trivial

private theorem fieldAt_steady (v : Value) (name : String) (offset : Int) :
    Steady (fieldAt f v name offset) fun _ => True := by
  refine .get fun st => ?_
  split
  · exact .get fun _ => .fail rfl
  · split
    · exact .pure trivial
    · exact .fail rfl

private theorem constant_steady (c : Const) : Steady (constant f c) fun _ => True := by
  cases c with
  | int n => exact .pure trivial
  | bool b => exact .pure trivial
  | string s => exact .pure trivial
  | missing => exact .fail rfl

private theorem withSlot_steady {slot : Int} {k : Nat → Exec Frame} {Q : Frame → Prop} (hk : ∀ i, Steady (k i) Q) :
    Steady (withSlot f slot k) Q := by
  unfold withSlot
  split
  · exact hk _
  · exact .fail rfl

end

/-- Where a frame is behind an instruction whose operands it has given up. -/
structure Frame.Left (f : Frame) (i : Instr) (g : Frame) : Prop where
  method_eq : g.method = f.method
  length_eq : g.stack.length = f.stack.length + i.pushes
  pc_eq : g.pc = f.pc ∧ i.fallsThrough = true ∨ ∃ d, i.dest? = some d ∧ g.pc = d.target

section
variable {f : Frame} {i : Instr}

private theorem Frame.Left.push {v : Value} (hp : i.pushes = 1) (hf : i.fallsThrough = true) : f.Left i (f.push v) :=
  ⟨rfl, by rw [hp]; rfl, .inl ⟨rfl, hf⟩⟩

private theorem Frame.Left.stay {f' : Frame} (hm : f'.method = f.method) (hs : f'.stack = f.stack) (hc : f'.pc = f.pc)
    (hp : i.pushes = 0) (hf : i.fallsThrough = true) : f.Left i f' :=
  ⟨hm, by rw [hs, hp, Nat.add_zero], .inl ⟨hc, hf⟩⟩

private theorem Frame.Left.jump {d : Dest} (hd : i.dest? = some d) (hp : i.pushes = 0) : f.Left i (f.jump d) :=
  ⟨rfl, by rw [hp]; rfl, .inr ⟨d, hd, rfl⟩⟩

/-- An instruction that pushes one result. -/
private theorem pushed_steady {α : Type} {x : Exec α} {v : α → Value} (hx : Steady x fun _ => True)
    (hp : i.pushes = 1) (hf : i.fallsThrough = true) :
    Steady (x >>= fun a => pure (f.push (v a))) (f.Left i) :=
  hx.bind fun _ _ => .pure (.push hp hf)

/-- An instruction that jumps or goes on. -/
private theorem branch_steady {α : Type} {x : Exec α} {c : α → Frame} {d : Dest} (hx : Steady x fun _ => True)
    (hc : ∀ a, c a = f ∨ c a = f.jump d) (hd : i.dest? = some d) (hp : i.pushes = 0) (hf : i.fallsThrough = true) :
    Steady (x >>= fun a => pure (c a)) (f.Left i) := by
  refine hx.bind fun a _ => .pure ?_
  rcases hc a with ha | ha
  · rw [ha]
    exact .stay rfl rfl rfl hp hf
  · rw [ha]
    exact .jump hd hp

/-- Two integer operands in front of the rest. -/
private theorem ints_steady {k : Int32 → Int32 → Exec Frame} {Q : Frame → Prop} (a b : Value)
    (hk : ∀ m n, Steady (k m n) Q) : Steady (needInt f 0 a >>= fun m => needInt f 1 b >>= fun n => k m n) Q :=
  (needInt_steady 0 a).bind fun m _ => (needInt_steady 1 b).bind fun n _ => hk m n

/-- Where operands are missing an instruction stops, but for want of an operation, so nothing is said about the
operands. -/
theorem perform_steady (f : Frame) (operands : List Value) (hm : i.isMark = false) (hs : i.stays = true) :
    Steady (perform f i operands) (f.Left i) := by
  cases i with
  | mark l => cases hm
  | call sig => cases hs
  | ret ty => cases hs
  | unreachable => cases hs
  | unknown n => exact .fail rfl
  | ldc c => exact pushed_steady (constant_steady c) rfl rfl
  | load slot ty =>
    refine withSlot_steady fun k => ?_
    split
    · exact .throw rfl
    · exact .pure (.push rfl rfl)
  | clear slot => exact withSlot_steady fun k => .pure (.stay rfl rfl rfl rfl rfl)
  | goto d => exact .pure (.jump rfl rfl)
  | new ty => exact pushed_steady (x := modifyGet _) (v := id) (.modifyGet fun _ => trivial) rfl rfl
  | pop ty => exact .pure (.stay rfl rfl rfl rfl rfl)
  | newList ty n =>
    simp only [perform]
    split
    · exact .fail rfl
    · exact pushed_steady (onHeap_steady _) rfl rfl
  | newRecord ty => exact pushed_steady (onHeap_steady _) rfl rfl
  | store slot ty =>
    rcases operands with _ | ⟨v, _⟩
    · exact .fail rfl
    · exact withSlot_steady fun k => .pure (.stay rfl rfl rfl rfl rfl)
  | neg =>
    rcases operands with _ | ⟨v, _⟩
    · exact .fail rfl
    · exact pushed_steady (v := fun n => .int (-n)) (needInt_steady 0 v) rfl rfl
  | ifeq d =>
    rcases operands with _ | ⟨v, _⟩
    · exact .fail rfl
    · refine branch_steady (needInt_steady 0 v) (fun n => ?_) rfl rfl rfl
      by_cases h : n = 0 <;> simp [h]
  | ifne d =>
    rcases operands with _ | ⟨v, _⟩
    · exact .fail rfl
    · refine branch_steady (needInt_steady 0 v) (fun n => ?_) rfl rfl rfl
      by_cases h : n = 0 <;> simp [h]
  | print ty =>
    rcases operands with _ | ⟨v, _⟩
    · exact .fail rfl
    · exact (Steady.modifyGet (Q := fun _ => True) fun _ => trivial).bind fun _ _ => .pure (.stay rfl rfl rfl rfl rfl)
  | convert source result =>
    rcases operands with _ | ⟨v, _⟩
    · exact .fail rfl
    · exact pushed_steady (convert_steady source result v) rfl rfl
  | length =>
    rcases operands with _ | ⟨v, _⟩
    · exact .fail rfl
    · refine .get fun st => ?_
      split
      · exact .pure (.push rfl rfl)
      · exact .fail rfl
  | clone ty =>
    rcases operands with _ | ⟨v, _⟩
    · exact .fail rfl
    · exact pushed_steady (onHeap_steady _) rfl rfl
  | getField name offset =>
    rcases operands with _ | ⟨r, _⟩
    · exact .fail rfl
    · exact (fieldAt_steady r name offset).bind fun _ _ => .pure (.push rfl rfl)
  | arith op =>
    rcases operands with _ | ⟨a, _ | ⟨b, _⟩⟩
    · exact .fail rfl
    · exact .fail rfl
    · exact ints_steady a b fun m n => pushed_steady (arithmetic_steady op m n) rfl rfl
  | xor logical =>
    rcases operands with _ | ⟨a, _ | ⟨b, _⟩⟩
    · exact .fail rfl
    · exact .fail rfl
    · exact ints_steady a b fun m n => .pure (.push rfl rfl)
  | ifcmp c d =>
    rcases operands with _ | ⟨a, _ | ⟨b, _⟩⟩
    · exact .fail rfl
    · exact .fail rfl
    · refine (needInt_steady 0 a).bind fun m _ => branch_steady (needInt_steady 1 b) (fun n => ?_) rfl rfl rfl
      by_cases h : c.holds m n = true <;> simp [h]
  | equals =>
    rcases operands with _ | ⟨a, _ | ⟨b, _⟩⟩
    · exact .fail rfl
    · exact .fail rfl
    · exact .get fun _ => .pure (.push rfl rfl)
  | append ty =>
    rcases operands with _ | ⟨a, _ | ⟨b, _⟩⟩
    · exact .fail rfl
    · exact .fail rfl
    · exact pushed_steady (onHeap_steady _) rfl rfl
  | listLoad ty =>
    rcases operands with _ | ⟨l, _ | ⟨k, _⟩⟩
    · exact .fail rfl
    · exact .fail rfl
    · exact (element_steady l k).bind fun _ _ => .pure (.push rfl rfl)
  | putField name offset =>
    rcases operands with _ | ⟨v, _ | ⟨r, _⟩⟩
    · exact .fail rfl
    · exact .fail rfl
    · exact (fieldAt_steady r name offset).bind fun _ _ =>
        (Steady.modifyGet (Q := fun _ => True) fun _ => trivial).bind fun _ _ => .pure (.stay rfl rfl rfl rfl rfl)
  | listStore ty =>
    rcases operands with _ | ⟨v, _ | ⟨l, _ | ⟨k, _⟩⟩⟩
    · exact .fail rfl
    · exact .fail rfl
    · exact .fail rfl
    · exact (element_steady l k).bind fun _ _ =>
        (Steady.modifyGet (Q := fun _ => True) fun _ => trivial).bind fun _ _ => .pure (.stay rfl rfl rfl rfl rfl)

end
end WhileStack.Machine
