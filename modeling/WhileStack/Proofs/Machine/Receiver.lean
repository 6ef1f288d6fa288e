import WhileStack.Proofs.Machine.Closed

/-! Values that wait on the stack until a call takes them as the object it goes to. -/
namespace WhileStack.Machine

/-- Control comes from the instruction at `i` to `k`, and leaves what that instruction pushed where it is. In front of
`k` there are `h` values above it. -/
inductive Above (code : Array Instr) (i : Nat) : Nat → Nat → Prop where
  | start : Above code i (i + 1) 0
  | next {k h j} : Above code i k h → code[k]? = some j → j.pops ≤ h → j.fallsThrough = true →
    Above code i (k + 1) (j.depthAfter h)
  | jump {k h j d} {target : Nat} : Above code i k h → code[k]? = some j → j.pops ≤ h → j.dest? = some d →
    d.target = target → Above code i target (j.depthAfter h)

/-- What the instruction at `i` pushed stays on the stack until it is the receiver of a call: control comes to no other
instruction that would take it, and does not leave the code with it. -/
def Received (code : Array Instr) (i : Nat) : Prop :=
  ∀ k h, Above code i k h → ∃ j, code[k]? = some j ∧
    ((j.pops ≤ h ∧ (j.fallsThrough = true ∨ j.isBranch = true)) ∨
      ∃ sig, j = .call sig ∧ sig.isStatic = false ∧ h = sig.params.length)

section
variable {index : Label → Nat} {full : Array Instr} {code args rest : Code} {j : Instr} {n k h d : Nat} {sig : Signature}

/-- Every index of placed code has an instruction of the code. -/
theorem Placed.split (hp : Placed index full n code) (hk : k < realCount code) :
    ∃ a i b, code = a ++ i :: b ∧ i.isMark = false ∧ k = realCount a ∧ full[n + k]? = some (retarget index i) := by
  induction code generalizing n k with
  | nil => cases hk
  | cons i code ih =>
    cases hi : i.isMark with
    | true =>
      cases i with
      | mark l =>
        obtain ⟨a, i, b, rfl, hm, hk, hj⟩ := ih (placed_mark.mp hp).2 hk
        exact ⟨.mark l :: a, i, b, rfl, hm, hk, hj⟩
      | _ => cases hi
    | false =>
      obtain ⟨hi', hp⟩ := (placed_cons hi).mp hp
      rw [realCount_cons hi] at hk
      cases k with
      | zero => exact ⟨[], i, code, rfl, hi, rfl, hi'⟩
      | succ k =>
        obtain ⟨a, x, b, rfl, hm, hk, hj⟩ := ih (k := k) hp (by omega)
        have hn : n + 1 + k = n + (k + 1) := by omega
        exact ⟨i :: a, x, b, rfl, hm, by rw [realCount_cons hi, hk], hn ▸ hj⟩

/-- Every instruction of an array that is placed code only is one of the code, but for its branch. -/
theorem Placed.found (hp : Placed index full 0 code) (hsize : full.size = realCount code) (hj : full[k]? = some j) :
    ∃ a i b, code = a ++ i :: b ∧ k = realCount a ∧ j = retarget index i := by
  obtain ⟨hk, -⟩ := Array.getElem?_eq_some_iff.mp hj
  obtain ⟨a, i, b, hab, -, hka, hi⟩ := hp.split (hsize ▸ hk)
  rw [Nat.zero_add, hj] at hi
  exact ⟨a, i, b, hab, hka, Option.some.inj hi⟩

/-- Resolved code has no instructions but those of the code. -/
theorem mem_of_resolve {full : Code} (h : resolve code = .ok full) (hj : j ∈ full.toArray) :
    ∃ index, ∃ i ∈ code, j = retarget index i := by
  obtain ⟨index, hlen, hp⟩ := resolve_placed h
  obtain ⟨k, hk⟩ := Array.getElem?_of_mem hj
  obtain ⟨a, i, b, rfl, -, rfl⟩ := hp.found (by rw [List.size_toArray, hlen]) hk
  exact ⟨index, i, by simp, rfl⟩

theorem retarget_isBranch (index : Label → Nat) (i : Instr) : (retarget index i).isBranch = i.isBranch := by
  cases i <;> rfl

section
variable {n' n₁ : Nat} {level : Label → Nat} {ds : List Nat} (hl : LabelsIn n' n₁ code) (hd : Deep level 0 code ds d)
  (hp : Placed index full n code) (hk : k < realCount code) (hj : full[n + k]? = some j)
  (hh : (ds ++ [d])[k]? = some h)
include hl hd hp hk hj hh

/-- Control goes on inside the code or to its end, at the depths of the code. -/
private theorem Deep.goes : j.pops ≤ h ∧ (j.fallsThrough = true → (ds ++ [d])[k + 1]? = some (j.depthAfter h)) ∧
    ∀ dest, j.dest? = some dest →
      ∃ m ≤ realCount code, dest.target = (n + m : Nat) ∧ (ds ++ [d])[m]? = some (j.depthAfter h) := by
  obtain ⟨i, d', e, rfl, hdk, hek, hsuit, hmem⟩ := hd.found hp hk hj
  obtain rfl : d' = h := Option.some.inj (hdk.symm.trans hh)
  rw [retarget_pops, retarget_fallsThrough, retarget_depthAfter, retarget_dest?]
  refine ⟨hsuit.enough, fun hf => by rw [hek, hsuit.next hf], fun dest' hdest' => ?_⟩
  obtain ⟨dest, hdest, rfl⟩ := Option.map_eq_some_iff.mp hdest'
  have hb : dest.label ∈ branchLabels code := List.mem_filterMap.mpr ⟨i, hmem, by rw [hdest]; rfl⟩
  obtain ⟨m, hm⟩ := mem_marks.mp (hl.closed _ hb)
  refine ⟨m, hm.le, ?_, ?_⟩
  · rw [hp.index_eq hm]
    rfl
  · rw [hd.level_eq hm, hsuit.branch dest hdest]

end

/-- Between a receiver and its call stands code that leaves the arguments. -/
theorem received {i : Instr} {n' n₁ : Nat} (hi : i.isMark = false) (hl : LabelsIn n' n₁ args)
    (hs : Sinks n' n₁ 0 args sig.params.length) (hstay : ∀ i ∈ args, i.fallsThrough = true ∨ i.isBranch = true)
    (hsig : sig.isStatic = false) (hp : Placed index full n (i :: args ++ .call sig :: rest)) : Received full n := by
  obtain ⟨level, ds, hd⟩ := hs.exists_deep
  have hp : Placed index full (n + 1) (args ++ .call sig :: rest) := ((placed_cons hi).mp hp).2
  have hargs : Placed index full (n + 1) args := (placed_append.mp hp).1
  have hcall : full[n + 1 + realCount args]? = some (.call sig) := ((placed_cons rfl).mp (placed_append.mp hp).2).1
  have hend : (ds ++ [sig.params.length])[realCount args]? = some sig.params.length := by
    rw [← hd.length_eq, List.getElem?_concat_length]
  -- the call itself takes one value more than there are above the receiver
  have hbefore {m h : Nat} {j : Instr} (hm : m ≤ realCount args) (hh : (ds ++ [sig.params.length])[m]? = some h)
      (hj : full[n + 1 + m]? = some j) (hpops : j.pops ≤ h) : m < realCount args := by
    apply Nat.lt_of_le_of_ne hm
    rintro rfl
    obtain rfl : .call sig = j := Option.some.inj (hcall.symm.trans hj)
    obtain rfl : sig.params.length = h := Option.some.inj (hend.symm.trans hh)
    exact Nat.not_succ_le_self _ hpops
  have hinside (k h : Nat) (ha : Above full n k h) :
      ∃ m ≤ realCount args, k = n + 1 + m ∧ (ds ++ [sig.params.length])[m]? = some h := by
    induction ha with
    | start => exact ⟨0, Nat.zero_le _, rfl, hd.head⟩
    | next _ hj hpops hf ih =>
      obtain ⟨m, hm, rfl, hh⟩ := ih
      have hlt := hbefore hm hh hj hpops
      exact ⟨m + 1, hlt, rfl, (hd.goes hl hargs hlt hj hh).2.1 hf⟩
    | jump _ hj hpops hdest htarget ih =>
      obtain ⟨m, hm, rfl, hh⟩ := ih
      obtain ⟨m', hm', ht, hh'⟩ := (hd.goes hl hargs (hbefore hm hh hj hpops) hj hh).2.2 _ hdest
      exact ⟨m', hm', by omega, hh'⟩
  intro k h ha
  obtain ⟨m, hm, rfl, hh⟩ := hinside k h ha
  rcases Nat.lt_or_eq_of_le hm with hlt | rfl
  · obtain ⟨a, i, b, rfl, -, -, hi⟩ := hargs.split hlt
    refine ⟨_, hi, .inl ⟨(hd.goes hl hargs hlt hi hh).1, ?_⟩⟩
    rw [retarget_fallsThrough, retarget_isBranch]
    exact hstay i (by simp)
  · exact ⟨_, hcall, .inr ⟨sig, rfl, hsig, Option.some.inj (hh.symm.trans hend)⟩⟩

end

end WhileStack.Machine
