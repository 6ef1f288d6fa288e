import WhileStack.Proofs.Machine.Perform

/-! Instructions in two frames at once. What an instruction does is the same move in both, if they agree on the slots
behind the first one and the instruction does not name that one. -/
namespace WhileStack.Machine

/-- What an instruction that stays in its frame does to the frame. Slot 0 is not written. -/
inductive Move where
  | push (v : Value)
  | jump (d : Dest)
  | set (slot : Nat) (v : Value)
  | stay

/-- What the move leaves on the stack. -/
def Move.values : Move → List Value
  | .push v => [v]
  | _ => []

namespace Frame

def move (f : Frame) : Move → Frame
  | .push v => f.push v
  | .jump d => f.jump d
  | .set slot v => f.setLocal (slot + 1) v
  | .stay => f

variable (f : Frame) (m : Move)

@[simp] theorem move_method : (f.move m).method = f.method := by cases m <;> rfl

@[simp] theorem move_stack : (f.move m).stack = m.values ++ f.stack := by cases m <;> rfl

@[simp] theorem move_size : (f.move m).locals.size = f.locals.size := by
  cases m with
  | set slot v => exact Array.size_setIfInBounds
  | _ => rfl

@[simp] theorem move_first : (f.move m).locals[0]? = f.locals[0]? := by
  cases m with
  | set slot v => exact Array.getElem?_setIfInBounds_ne (Nat.succ_ne_zero slot)
  | _ => rfl

variable {f} {g : Frame}

theorem move_pc (h : g.pc = f.pc) : (g.move m).pc = (f.move m).pc := by
  cases m with
  | jump d => rfl
  | _ => exact h

theorem move_local (hs : g.locals.size = f.locals.size) (h : ∀ k, g.locals[k + 1]? = f.locals[k + 1]?) (k : Nat) :
    (g.move m).locals[k + 1]? = (f.move m).locals[k + 1]? := by
  cases m with
  | set slot v => simp only [move, setLocal, Array.getElem?_setIfInBounds, hs, h]
  | _ => exact h k

end Frame

/-- Where one computation gives a result or stops by a fault, the other does so with the same effect. -/
def Mirrors {α β : Type} (R : α → β → Prop) (x : Exec α) (y : Exec β) : Prop :=
  ∀ st, match x st with
    | .ok a st' => ∃ b, y st = .ok b st' ∧ R a b
    | .error (.fault e) st' => y st = .error (.fault e) st'
    | .error _ _ => True

namespace Mirrors
variable {α β γ δ : Type} {R : α → β → Prop} {S : γ → δ → Prop}

theorem pure {a : α} {b : β} (h : R a b) : Mirrors R (pure a) (pure b) := fun _ => ⟨b, rfl, h⟩

theorem fault {e : Fault} : Mirrors R (throw (.fault e)) (throw (.fault e)) := fun _ => rfl

theorem fail {f : Frame} {cause : CodeCause} {y : Exec β} : Mirrors R (fail f cause) y := fun _ => trivial

theorem bind {x : Exec α} {y : Exec β} {k : α → Exec γ} {l : β → Exec δ} (h : Mirrors R x y)
    (hk : ∀ a b, R a b → Mirrors S (k a) (l b)) : Mirrors S (x >>= k) (y >>= l) := by
  intro st
  have hx := h st
  rw [Exec.bind_apply, Exec.bind_apply]
  split at hx
  · rename_i a st' hr
    obtain ⟨b, hy, hab⟩ := hx
    rw [hr, hy]
    exact hk a b hab st'
  · rename_i e st' hr
    rw [hr, hx]
  · rename_i e st' hne hr
    rw [hr]
    split
    · rename_i heq
      cases heq
    · rename_i heq
      cases heq
      exact absurd rfl (hne _)
    · trivial

theorem refl (x : Exec α) : Mirrors Eq x x := by
  intro st
  split
  · exact ⟨_, ‹_›, rfl⟩
  · exact ‹_›
  · trivial

theorem get {k : Store → Exec γ} {l : Store → Exec δ} (hk : ∀ st, Mirrors S (k st) (l st)) :
    Mirrors S (get >>= k) (get >>= l) := fun st => hk st st

end Mirrors

/-- Frames of methods with one name that hold the same values behind slot 0. -/
structure Frame.Alike (f g : Frame) : Prop where
  name_eq : g.method.name = f.method.name
  size_eq : g.locals.size = f.locals.size
  local_eq : ∀ k, g.locals[k + 1]? = f.locals[k + 1]?

/-- Both frames make the same move. -/
def Together (f g f' g' : Frame) : Prop := ∃ m, f' = f.move m ∧ g' = g.move m

namespace Together
variable {f g f₁ f₂ g₁ g₂ : Frame}

theorem push (v : Value) : Together f g (f.push v) (g.push v) := ⟨.push v, rfl, rfl⟩

theorem jump (d : Dest) : Together f g (f.jump d) (g.jump d) := ⟨.jump d, rfl, rfl⟩

theorem set (k : Nat) (v : Value) : Together f g (f.setLocal (k + 1) v) (g.setLocal (k + 1) v) := ⟨.set k v, rfl, rfl⟩

theorem stay : Together f g f g := ⟨.stay, rfl, rfl⟩

theorem ite {c : Prop} [Decidable c] (hx : Together f g f₁ g₁) (hy : Together f g f₂ g₂) :
    Together f g (if c then f₁ else f₂) (if c then g₁ else g₂) := by
  split
  · exact hx
  · exact hy

end Together

section
variable {f g : Frame} (h : f.Alike g)

private theorem needInt_mirrors (f g : Frame) (n : Nat) (v : Value) : Mirrors Eq (needInt f n v) (needInt g n v) := by
  unfold needInt
  split
  · exact .pure rfl
  · exact .get fun _ => .fail

private theorem onHeap_mirrors (f g : Frame) (op : Heap → Except ValueError (Value × Heap)) :
    Mirrors Eq (onHeap f op) (onHeap g op) := by
  refine .get fun st => ?_
  split
  · exact .refl _
  · exact .fail

private theorem convert_mirrors (f g : Frame) (source result : Ty) (v : Value) :
    Mirrors Eq (convert f source result v) (convert g source result v) := by
  unfold convert
  split
  · exact .refl _
  · refine .get fun st => ?_
    split
    · exact onHeap_mirrors f g _
    · exact .get fun _ => .fail
  · exact .fail

private theorem fieldAt_mirrors (f g : Frame) (v : Value) (name : String) (offset : Int) :
    Mirrors Eq (fieldAt f v name offset) (fieldAt g v name offset) := by
  refine .get fun st => ?_
  split
  · exact .get fun _ => .fail
  · split
    · exact .pure rfl
    · exact .fail

private theorem constant_mirrors (f g : Frame) (c : Const) : Mirrors Eq (constant f c) (constant g c) := by
  cases c with
  | missing => exact .fail
  | _ => exact .pure rfl

section
include h

private theorem arithmetic_mirrors (op : Arith) (a b : Int32) : Mirrors Eq (arithmetic f op a b) (arithmetic g op a b) := by
  unfold arithmetic
  rw [h.name_eq]
  exact .refl _

private theorem element_mirrors (l k : Value) : Mirrors Eq (element f l k) (element g l k) := by
  refine .get fun st => ?_
  rw [h.name_eq]
  split
  · exact .get fun _ => .fail
  · exact .get fun _ => .fail
  · exact .refl _

/-- The frames have the same slots, and those that code names are behind slot 0. -/
private theorem withSlot_mirrors {slot : Int} {k l : Nat → Exec Frame} {R : Frame → Frame → Prop} (hs : slot ≠ 0)
    (hk : ∀ n, Mirrors R (k (n + 1)) (l (n + 1))) : Mirrors R (withSlot f slot k) (withSlot g slot l) := by
  unfold withSlot Frame.slot?
  rw [h.size_eq]
  by_cases hin : 0 ≤ slot ∧ slot < f.locals.size
  · rw [if_pos hin]
    obtain ⟨n, hn⟩ : ∃ n, slot.toNat = n + 1 := ⟨slot.toNat - 1, by omega⟩
    simp only [hn]
    exact hk n
  · rw [if_neg hin]
    exact .fail

end

/-- An instruction that pushes one result. -/
private theorem pushed_mirrors {α : Type} {x y : Exec α} {v : α → Value} (hx : Mirrors Eq x y) :
    Mirrors (Together f g) (x >>= fun a => pure (f.push (v a))) (y >>= fun a => pure (g.push (v a))) :=
  hx.bind fun a _ hab => .pure (hab ▸ .push (v a))

/-- An instruction that changes the heap or the output. -/
private theorem modified_mirrors {α : Type} {x y : Exec α} {k : α → Store → Store} (hx : Mirrors Eq x y) :
    Mirrors (Together f g) (x >>= fun a => modify (k a) >>= fun _ => pure f)
      (y >>= fun a => modify (k a) >>= fun _ => pure g) := by
  refine hx.bind ?_
  rintro a _ rfl
  exact (Mirrors.refl (modify (k a))).bind fun _ _ _ => .pure .stay

/-- Two integer operands in front of the rest. -/
private theorem ints_mirrors {k l : Int32 → Int32 → Exec Frame} (a b : Value)
    (hk : ∀ m n, Mirrors (Together f g) (k m n) (l m n)) :
    Mirrors (Together f g) (needInt f 0 a >>= fun m => needInt f 1 b >>= fun n => k m n)
      (needInt g 0 a >>= fun m => needInt g 1 b >>= fun n => l m n) := by
  refine (needInt_mirrors f g 0 a).bind ?_
  rintro m _ rfl
  refine (needInt_mirrors f g 1 b).bind ?_
  rintro n _ rfl
  exact hk m n

/-- Instructions that stay in their frame, make no object and do not name slot 0. -/
def Instr.isOpen : Instr → Bool
  | .new _ | .call _ | .ret _ | .unreachable => false
  | .load slot _ => slot != 0
  | .store slot _ => slot != 0
  | .clear slot => slot != 0
  | _ => true

theorem Instr.stays_of_isOpen {i : Instr} (hi : i.isOpen = true) : i.stays = true := by
  cases i <;> first | rfl | cases hi

include h in
theorem perform_mirrors {i : Instr} (operands : List Value) (hi : i.isOpen = true) :
    Mirrors (Together f g) (perform f i operands) (perform g i operands) := by
  cases i with
  | mark l => exact .fail
  | unknown n => exact .fail
  | new ty => cases hi
  | call sig => cases hi
  | ret ty => cases hi
  | unreachable => cases hi
  | ldc c => exact pushed_mirrors (constant_mirrors f g c)
  | load slot ty =>
    refine withSlot_mirrors h (by simpa [Instr.isOpen] using hi) fun k => ?_
    have hlocal : g.locals.getD (k + 1) .null = f.locals.getD (k + 1) .null := by
      simp only [Array.getD_eq_getD_getElem?, h.local_eq]
    rw [hlocal, Frame.fault, Frame.fault, h.name_eq]
    split
    · exact .fault
    · exact .pure (.push _)
  | clear slot => exact withSlot_mirrors h (by simpa [Instr.isOpen] using hi) fun k => .pure (.set k .null)
  | goto d => exact .pure (.jump d)
  | pop ty => exact .pure .stay
  | newList ty n =>
    simp only [perform]
    split
    · exact .fail
    · exact pushed_mirrors (onHeap_mirrors f g _)
  | newRecord ty => exact pushed_mirrors (onHeap_mirrors f g _)
  | store slot ty =>
    rcases operands with _ | ⟨v, _⟩
    · exact .fail
    · exact withSlot_mirrors h (by simpa [Instr.isOpen] using hi) fun k => .pure (.set k v)
  | neg =>
    rcases operands with _ | ⟨v, _⟩
    · exact .fail
    · exact pushed_mirrors (v := fun n => .int (-n)) (needInt_mirrors f g 0 v)
  | ifeq d =>
    rcases operands with _ | ⟨v, _⟩
    · exact .fail
    · refine (needInt_mirrors f g 0 v).bind ?_
      rintro n _ rfl
      exact .pure (.ite (.jump d) .stay)
  | ifne d =>
    rcases operands with _ | ⟨v, _⟩
    · exact .fail
    · refine (needInt_mirrors f g 0 v).bind ?_
      rintro n _ rfl
      exact .pure (.ite .stay (.jump d))
  | print ty =>
    rcases operands with _ | ⟨v, _⟩
    · exact .fail
    · exact (Mirrors.refl (modify fun s => s.print v)).bind fun _ _ _ => .pure Together.stay
  | convert source result =>
    rcases operands with _ | ⟨v, _⟩
    · exact .fail
    · exact pushed_mirrors (convert_mirrors f g source result v)
  | length =>
    rcases operands with _ | ⟨v, _⟩
    · exact .fail
    · refine .get fun st => ?_
      split
      · exact .pure (.push _)
      · exact .fail
  | clone ty =>
    rcases operands with _ | ⟨v, _⟩
    · exact .fail
    · exact pushed_mirrors (onHeap_mirrors f g _)
  | getField name offset =>
    rcases operands with _ | ⟨r, _⟩
    · exact .fail
    · refine (fieldAt_mirrors f g r name offset).bind ?_
      rintro r _ rfl
      exact .pure (.push _)
  | arith op =>
    rcases operands with _ | ⟨a, _ | ⟨b, _⟩⟩
    · exact .fail
    · exact .fail
    · exact ints_mirrors a b fun m n => pushed_mirrors (arithmetic_mirrors h op m n)
  | xor logical =>
    rcases operands with _ | ⟨a, _ | ⟨b, _⟩⟩
    · exact .fail
    · exact .fail
    · exact ints_mirrors a b fun m n => .pure (.push _)
  | ifcmp c d =>
    rcases operands with _ | ⟨a, _ | ⟨b, _⟩⟩
    · exact .fail
    · exact .fail
    · exact ints_mirrors a b fun m n => .pure (.ite (.jump d) .stay)
  | equals =>
    rcases operands with _ | ⟨a, _ | ⟨b, _⟩⟩
    · exact .fail
    · exact .fail
    · exact .get fun _ => .pure (.push _)
  | append ty =>
    rcases operands with _ | ⟨a, _ | ⟨b, _⟩⟩
    · exact .fail
    · exact .fail
    · exact pushed_mirrors (onHeap_mirrors f g _)
  | listLoad ty =>
    rcases operands with _ | ⟨l, _ | ⟨k, _⟩⟩
    · exact .fail
    · exact .fail
    · refine (element_mirrors h l k).bind ?_
      rintro r _ rfl
      exact .pure (.push _)
  | putField name offset =>
    rcases operands with _ | ⟨v, _ | ⟨r, _⟩⟩
    · exact .fail
    · exact .fail
    · exact modified_mirrors (fieldAt_mirrors f g r name offset)
  | listStore ty =>
    rcases operands with _ | ⟨v, _ | ⟨l, _ | ⟨k, _⟩⟩⟩
    · exact .fail
    · exact .fail
    · exact .fail
    · exact modified_mirrors (element_mirrors h l k)

end

end WhileStack.Machine
