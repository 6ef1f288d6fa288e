import WhileStack.Machine.Step

/-! What the machine does next: one equation for each kind of instruction, and for what keeps it from having one. -/
namespace WhileStack.Machine

/-- The instructions that neither call nor leave. -/
def Instr.stays : Instr → Bool
  | .ret _ => false
  | .unreachable => false
  | .call _ => false
  | _ => true

/-- The frame behind an instruction that has taken its operands. -/
def Frame.past (f : Frame) (i : Instr) : Frame := { f with stack := f.stack.drop i.pops, pc := f.pc + 1 }

section
variable {p : Program} {st : Store} {k : Nat} {f : Frame} {cs : List Pending} {i : Instr}

@[simp] theorem Frame.past_method : (f.past i).method = f.method := rfl

@[simp] theorem Frame.past_stack : (f.past i).stack = f.stack.drop i.pops := rfl

@[simp] theorem Frame.past_locals : (f.past i).locals = f.locals := rfl

@[simp] theorem Frame.past_pc : (f.past i).pc = f.pc + 1 := rfl

theorem step_outside (hi : f.instrAt? f.pc = none) :
    step p ⟨st, k, f, cs⟩ = .stopped st k (f.badCode (.pcOutside f.pc)) := by
  simp only [step, hi]

theorem step_underflow (hi : f.instrAt? f.pc = some i) (hl : f.stack.length < i.pops) :
    step p ⟨st, k, f, cs⟩ =
      .stopped st (k + 1) ({ f with pc := f.pc + 1 }.badCode (.underflow i.pops f.stack.length)) := by
  simp only [step, hi, if_pos hl]

theorem step_performs (hi : f.instrAt? f.pc = some i) (hl : i.pops ≤ f.stack.length) (hs : i.stays = true) :
    step p ⟨st, k, f, cs⟩ = match perform (f.past i) i (f.stack.take i.pops).reverse st with
      | .ok g st' => .running ⟨st', k + 1, g, cs⟩
      | .error e st' => .stopped st' (k + 1) e := by
  simp only [step, hi, if_neg (Nat.not_lt.mpr hl)]
  cases i <;> first | rfl | cases hs

theorem perform_of_step {s : State} (hi : f.instrAt? f.pc = some i) (hl : i.pops ≤ f.stack.length) (hs : i.stays = true)
    (h : step p ⟨st, k, f, cs⟩ = .running s) :
    ∃ g st', perform (f.past i) i (f.stack.take i.pops).reverse st = .ok g st' ∧ s = ⟨st', k + 1, g, cs⟩ := by
  rw [step_performs hi hl hs] at h
  split at h
  · rename_i g st' hg
    cases h
    exact ⟨g, st', hg, rfl⟩
  · cases h

theorem step_returns {ty : Ty} (hi : f.instrAt? f.pc = some (.ret ty)) (hl : ty.width ≤ f.stack.length) :
    step p ⟨st, k, f, cs⟩ = giveBack ((f.stack.take ty.width).reverse.headD .null) st (k + 1) cs := by
  have hpops : (Instr.ret ty).pops = ty.width := rfl
  simp only [step, hi, hpops, if_neg (Nat.not_lt.mpr hl)]

theorem step_unreachable (hi : f.instrAt? f.pc = some .unreachable) :
    step p ⟨st, k, f, cs⟩ = .stopped st (k + 1) ((f.past .unreachable).fault .missingReturn .nothing) := by
  simp only [step, hi, Instr.pops, Nat.not_lt_zero, if_false]
  rfl

theorem step_calls {sig : Signature} (hi : f.instrAt? f.pc = some (.call sig))
    (hl : (Instr.call sig).pops ≤ f.stack.length) :
    step p ⟨st, k, f, cs⟩ =
      match invoke p (f.past (.call sig)) sig (f.stack.take (Instr.call sig).pops).reverse (cs.length + 1) st.heap with
      | .ok g => .running ⟨st, k + 1, g, ⟨f.past (.call sig), sig⟩ :: cs⟩
      | .error e => .stopped st (k + 1) e := by
  simp only [step, hi, if_neg (Nat.not_lt.mpr hl)]
  rfl

theorem giveBack_void {v : Value} {sig : Signature} (hr : sig.ret.isVoid = true) :
    giveBack v st k (⟨f, sig⟩ :: cs) = .running ⟨st, k, f, cs⟩ :=
  if_pos hr

theorem giveBack_push {v : Value} {sig : Signature} (hr : sig.ret.isVoid = false) (hv : v ≠ .null) :
    giveBack v st k (⟨f, sig⟩ :: cs) = .running ⟨st, k, f.push v, cs⟩ := by
  cases v with
  | null => exact absurd rfl hv
  | _ => exact if_neg (by simp [hr])

end
end WhileStack.Machine
