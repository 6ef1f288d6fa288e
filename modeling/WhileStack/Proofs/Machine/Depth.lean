import WhileStack.Machine.Depth
import Mathlib.Order.Bounds.Basic
import Mathlib.Tactic.Basic

/-! Where control may go in resolved code. Depths that fit each other along it are enough for the check of the stack: it
never finds another depth. -/
namespace WhileStack.Machine

/-- Control may go from one index to another: to the next one, or by a branch that is taken. -/
inductive Flows (code : Array Instr) (n : Nat) : Bool → Int → Prop
  | next {i} (hi : code[n]? = some i) (hf : i.fallsThrough = true) : Flows code n false (n + 1 : Nat)
  | jump {i dest} (hi : code[n]? = some i) (hd : i.dest? = some dest) : Flows code n true dest.target

/-- The indices that control gets to from the first, one way or another. -/
inductive Reached (code : Array Instr) : Nat → Prop
  | entry (h : 0 < code.size) : Reached code 0
  | step {n b} {t : Nat} (hn : Reached code n) (hf : Flows code n b t) (ht : t < code.size) : Reached code t

/-! Machine integers. -/

section
variable {code : Array Instr} {k d e : Int}

/-- A machine integer of the check. -/
def InWord (code : Array Instr) (k : Int) : Prop := -(wordBound code : Int) ≤ k ∧ k < wordBound code

theorem size_lt_wordBound (code : Array Instr) : code.size < wordBound code := Nat.le_max_right ..

theorem wrap_eq (h : InWord code k) : wrap code k = k := by
  obtain ⟨hl, hu⟩ := h
  exact Int.bmod_eq_of_le (by omega) (by omega)

theorem wrap_inWord (code : Array Instr) (k : Int) : InWord code (wrap code k) := by
  have hpos : 0 < 2 * wordBound code := by have := size_lt_wordBound code; omega
  have hl := Int.le_bmod (x := k) hpos
  have hu := Int.bmod_lt (x := k) hpos
  constructor <;> unfold wrap <;> omega

theorem inWord_of_le (h₀ : -1 ≤ k) (h : k ≤ code.size) : InWord code k := by
  have := size_lt_wordBound code
  constructor <;> omega

end

/-! The depth in front of an instruction and behind it. -/

section
variable {code : Array Instr} {i : Instr} {d : Int}

theorem blocked_eq_none : blocked i d = none ↔ i.isMark = false ∧ (∀ dest, i.dest? = some dest → dest.label = 0) ∧
    i.takes ≤ d ∧ (i.isReturn = true → d = i.takes) := by
  cases i <;> simp only [blocked, Instr.isMark, Instr.dest?, Instr.isReturn] <;> grind

/-- Only a list asks for less than nothing. -/
theorem Instr.takes_neg (h : i.takes < 0) : ∃ t n, i = .newList t n := by
  cases i <;> first | exact ⟨_, _, rfl⟩ | simp [takes, pops] at h <;> omega

/-- A branch leaves no depth that stands for none. -/
theorem wrap_after_of_dest? {dest : Dest} (hd : i.dest? = some dest) (h : i.takes ≤ d) (hw : InWord code d) :
    0 ≤ wrap code (i.after d) := by
  have hpos : 0 ≤ i.takes ∧ i.pushes = 0 := by cases i <;> simp_all [Instr.dest?, Instr.takes, Instr.pops, Instr.pushes]
  have hafter : 0 ≤ i.after d ∧ i.after d ≤ d := by unfold Instr.after; omega
  have hword := hw.2
  rw [wrap_eq ⟨by omega, by omega⟩]
  exact hafter.1

/-- What stands for no depth is told apart from every depth behind the next instruction too. -/
theorem wrap_after_ne (h : d ≠ unset) (hw : InWord code d) : wrap code (i.after unset) ≠ wrap code (i.after d) := by
  obtain ⟨hl, hu⟩ := hw
  intro he
  have hdiff := Int.bmod_eq_bmod_iff_bmod_sub_eq_zero.mp he
  unfold Instr.after unset at hdiff
  unfold unset at h
  rw [Int.bmod_eq_of_le (by omega) (by omega)] at hdiff
  omega

end

/-! Depths that fit. -/

/-- Depths of the indices that control gets to: each instruction may run at its own, and passes on the depth behind it,
brought into range by `range`, to whatever follows. -/
structure Levelled (range : Int → Int) (code : Array Instr) (depth : Nat → Int) : Prop where
  entry : depth 0 = 0
  real : ∀ {n i}, Reached code n → code[n]? = some i → i.isMark = false
  resolved : ∀ {n i dest}, Reached code n → code[n]? = some i → i.dest? = some dest → dest.label = 0
  enough : ∀ {n i}, Reached code n → code[n]? = some i → i.takes ≤ depth n
  leaves : ∀ {n i}, Reached code n → code[n]? = some i → i.isReturn = true → depth n = i.takes
  follows : ∀ {n i b t}, Reached code n → code[n]? = some i → Flows code n b t →
    ∃ m : Nat, t = m ∧ m < code.size ∧ depth m = range (i.after (depth n))

/-- The depths behind the instructions that control gets to, and zero. -/
def depthsBehind (range : Int → Int) (code : Array Instr) (depth : Nat → Int) : Set Int :=
  insert 0 {k | ∃ n i, Reached code n ∧ code[n]? = some i ∧ k = range (i.after (depth n))}

section
variable {range : Int → Int} {code : Array Instr} {depth depth' : Nat → Int} {n m : Nat} {i : Instr}

theorem Reached.lt (h : Reached code n) : n < code.size := by
  cases h with
  | entry h => exact h
  | step _ _ h => exact h

theorem Reached.exists_instr (h : Reached code n) : ∃ i, code[n]? = some i := ⟨_, Array.getElem?_eq_getElem h.lt⟩

/-- Control comes to an index at the depth behind another instruction, or with nothing. -/
theorem Levelled.mem_depthsBehind (h : Levelled range code depth) (hr : Reached code n) :
    depth n ∈ depthsBehind range code depth := by
  cases hr with
  | entry _ => exact .inl h.entry
  | step hm hf _ =>
    obtain ⟨i, hi⟩ := hm.exists_instr
    obtain ⟨t, ht, -, hd⟩ := h.follows hm hi hf
    obtain rfl := Int.ofNat_inj.mp ht
    exact .inr ⟨_, i, hm, hi, hd⟩

theorem Levelled.free (h : Levelled range code depth) (hr : Reached code n) (hi : code[n]? = some i) :
    blocked i (depth n) = none :=
  blocked_eq_none.mpr ⟨h.real hr hi, fun _ hd => h.resolved hr hi hd, h.enough hr hi, fun hret => h.leaves hr hi hret⟩

/-- Depths that fit are the only ones. -/
theorem Levelled.unique (h : Levelled range code depth) (h' : Levelled range code depth') (hr : Reached code n) :
    depth n = depth' n := by
  induction hr with
  | entry => rw [h.entry, h'.entry]
  | step hn hf _ ih =>
    obtain ⟨i, hi⟩ := hn.exists_instr
    obtain ⟨m, hm, -, hd⟩ := h.follows hn hi hf
    obtain ⟨m', hm', -, hd'⟩ := h'.follows hn hi hf
    obtain rfl := Int.ofNat_inj.mp hm
    obtain rfl := Int.ofNat_inj.mp hm'
    rw [hd, hd', ih]

end

/-! What one round of the check does. -/

/-- A depth is passed on to an index, which gets it or has it. -/
inductive Sends (d : Int) (t : Nat) : DepthState → DepthState → Prop
  | new {s} (h : s.depth[t]? = some unset) :
    Sends d t s { s with depth := s.depth.setIfInBounds t d, work := t :: s.work }
  | old {s} (h : s.depth[t]? = some d) (hd : d ≠ unset) : Sends d t s s

section
variable {code : Array Instr} {s s' : DepthState} {n : Nat} {i : Instr} {target d : Int}

theorem flow_eq_ok (hs : s.depth.size = code.size) :
    flow code n target d s = .ok s' ↔ ∃ t : Nat, target = t ∧ t < code.size ∧ Sends d t s s' := by
  by_cases hrange : 0 ≤ target ∧ target < code.size
  · obtain ⟨t, rfl⟩ := Int.eq_ofNat_of_zero_le hrange.1
    have ht : t < s.depth.size := by omega
    have hget : s.depth[t]? = some s.depth[t] := Array.getElem?_eq_getElem ht
    have hflow : flow code n t d s = if s.depth[t] = unset then
        .ok { s with depth := s.depth.setIfInBounds t d, work := t :: s.work }
        else if s.depth[t] = d then .ok s else .error (depthError code t (.mismatch s.depth[t] d)) := by
      rw [flow, if_neg (by omega), if_neg (by omega)]
      simp only [Int.toNat_natCast, Array.getD_eq_getD_getElem?, hget, Option.getD_some]
    rw [hflow]
    constructor
    · intro h
      refine ⟨t, rfl, by omega, ?_⟩
      split at h
      · rename_i hunset
        cases h
        exact .new (hget.trans (congrArg some hunset))
      · rename_i hset
        split at h
        · rename_i hd
          cases h
          exact .old (hget.trans (congrArg some hd)) (hd ▸ hset)
        · cases h
    · rintro ⟨t', ht', -, h⟩
      obtain rfl := Int.ofNat_inj.mp ht'
      cases h with
      | new h => rw [if_pos (Option.some.inj (hget.symm.trans h))]
      | old h hd =>
        have he := Option.some.inj (hget.symm.trans h)
        rw [if_neg (he ▸ hd), if_pos he]
  · constructor
    · intro h
      unfold flow at h
      split at h
      · cases h
      split at h
      · cases h
      · omega
    · rintro ⟨t, rfl, ht, -⟩
      omega

theorem flow_nat_eq_ok {t : Nat} (hs : s.depth.size = code.size) :
    flow code n t d s = .ok s' ↔ t < code.size ∧ Sends d t s s' := by
  rw [flow_eq_ok hs]
  constructor
  · rintro ⟨t', ht', h⟩
    exact Int.ofNat_inj.mp ht' ▸ h
  · exact fun h => ⟨t, rfl, h⟩

/-- What a visit has done: nothing was wrong, and the depth behind the instruction went to the branch target first and
then to the next instruction, as far as there are such. -/
structure Visited (code : Array Instr) (n : Nat) (i : Instr) (d : Int) (s s₁ s' : DepthState) : Prop where
  free : blocked i d = none
  branch : ∀ dest, i.dest? = some dest → ∃ t : Nat, dest.target = t ∧ t < code.size ∧
    Sends (wrap code (i.after d)) t (s.raise (wrap code (i.after d))) s₁
  straight : i.dest? = none → s₁ = s.raise (wrap code (i.after d))
  next : i.fallsThrough = true → n + 1 < code.size ∧ Sends (wrap code (i.after d)) (n + 1) s₁ s'
  stay : i.fallsThrough = false → s' = s₁

theorem Sends.size_eq {t : Nat} (h : Sends d t s s') : s'.depth.size = s.depth.size := by
  cases h with
  | new _ => simp
  | old _ _ => rfl

theorem Visited.size_eq {s₁ : DepthState} (v : Visited code n i d s s₁ s') : s'.depth.size = s.depth.size := by
  have hfirst : s₁.depth.size = s.depth.size := by
    cases hdest : i.dest? with
    | none => exact v.straight hdest ▸ rfl
    | some dest =>
      obtain ⟨t, -, -, hsend⟩ := v.branch dest hdest
      exact hsend.size_eq
  cases hf : i.fallsThrough with
  | false => exact v.stay hf ▸ hfirst
  | true => exact (v.next hf).2.size_eq.trans hfirst

theorem visit_eq_ok (hs : s.depth.size = code.size) :
    visit code n i d s = .ok s' ↔ ∃ s₁, Visited code n i d s s₁ s' := by
  have hnext {s₁ : DepthState} (hs₁ : s₁.depth.size = code.size) :
      (if i.fallsThrough = true then flow code n (n + 1 : Nat) (wrap code (i.after d)) s₁ else .ok s₁) = .ok s' ↔
        (i.fallsThrough = true → n + 1 < code.size ∧ Sends (wrap code (i.after d)) (n + 1) s₁ s') ∧
          (i.fallsThrough = false → s' = s₁) := by
    cases i.fallsThrough with
    | false => simp [eq_comm]
    | true => simp only [flow_nat_eq_ok hs₁, if_true, forall_const, Bool.true_eq_false, false_implies, and_true]
  unfold visit
  split
  · rename_i cause hb
    constructor
    · intro h
      cases h
    · rintro ⟨s₁, h⟩
      cases hb.symm.trans h.free
  · rename_i hb
    cases hd : i.dest? with
    | none =>
      have hstep := @hnext (s.raise (wrap code (i.after d))) hs
      constructor
      · intro h
        obtain ⟨h, h'⟩ := hstep.mp h
        exact ⟨_, hb, by simp [hd], fun _ => rfl, h, h'⟩
      · rintro ⟨s₁, h⟩
        obtain rfl := h.straight hd
        exact hstep.mpr ⟨h.next, h.stay⟩
    | some dest =>
      constructor
      · intro h
        cases hf : flow code n dest.target (wrap code (i.after d)) (s.raise (wrap code (i.after d))) with
        | error e => simp [hf, bind, Except.bind] at h
        | ok s₁ =>
          simp only [hf, bind, Except.bind] at h
          obtain ⟨t, ht, hlt, hsend⟩ := (flow_eq_ok (s := s.raise _) hs).mp hf
          obtain ⟨h, h'⟩ := (hnext (hsend.size_eq.trans hs)).mp h
          exact ⟨s₁, hb, fun dest' hd' => by cases hd.symm.trans hd'; exact ⟨t, ht, hlt, hsend⟩, by simp [hd], h, h'⟩
      · rintro ⟨s₁, h⟩
        obtain ⟨t, ht, hlt, hsend⟩ := h.branch dest hd
        have hf := (flow_eq_ok (n := n) (s := s.raise (wrap code (i.after d))) hs).mpr ⟨t, ht, hlt, hsend⟩
        simp only [hf, bind, Except.bind]
        exact (hnext (hsend.size_eq.trans hs)).mpr ⟨h.next, h.stay⟩

end

/-! With depths that fit the check goes through. -/

/-- What has been found agrees with the given depths, and was found where control gets to. -/
private structure Known (code : Array Instr) (depth : Nat → Int) (s : DepthState) : Prop where
  size_eq : s.depth.size = code.size
  found : ∀ n d, s.depth[n]? = some d → d = unset ∨ d = depth n
  work : ∀ n ∈ s.work, Reached code n ∧ s.depth[n]? = some (depth n)
  greatest : (s.greatest : Int) ∈ depthsBehind (wrap code) code depth

section
variable {code : Array Instr} {depth : Nat → Int} {s : DepthState} {n t : Nat} {i : Instr}

/-- An index that control gets to can be given its depth. -/
private theorem Known.send (k : Known code depth s) (hr : Reached code t) :
    ∃ s', Sends (depth t) t s s' ∧ Known code depth s' := by
  have ht : t < s.depth.size := k.size_eq.symm ▸ hr.lt
  have hget := Array.getElem?_eq_getElem ht
  by_cases hunset : s.depth[t]? = some unset
  · refine ⟨_, .new hunset, ⟨by simpa using k.size_eq, fun n d hn => ?_, fun n hn => ?_, k.greatest⟩⟩
    · rw [Array.getElem?_setIfInBounds] at hn
      split at hn
      · rename_i hnt
        exact .inr (hnt ▸ (Option.some.inj hn).symm)
      · exact k.found n d hn
    · rw [Array.getElem?_setIfInBounds]
      by_cases hnt : t = n
      · subst hnt
        exact ⟨hr, by rw [if_pos rfl, if_pos ht]⟩
      · rw [if_neg hnt]
        exact k.work n ((List.mem_cons.mp hn).resolve_left (Ne.symm hnt))
  · have hne : s.depth[t] ≠ unset := fun h => hunset (h ▸ hget)
    have heq := (k.found t _ hget).resolve_left hne
    exact ⟨s, .old (heq ▸ hget) (heq ▸ hne), k⟩

/-- A visit makes the bound no greater than it has to be. -/
private theorem Known.raise (k : Known code depth s) (hr : Reached code n) (hi : code[n]? = some i) :
    Known code depth (s.raise (wrap code (i.after (depth n)))) := by
  refine ⟨k.size_eq, k.found, k.work, ?_⟩
  rcases Nat.le_total (wrap code (i.after (depth n))).toNat s.greatest with h | h
  · simpa only [DepthState.raise, Nat.max_eq_left h] using k.greatest
  · simp only [DepthState.raise, Nat.max_eq_right h]
    by_cases hpos : 0 ≤ wrap code (i.after (depth n))
    · exact .inr ⟨n, i, hr, hi, Int.toNat_of_nonneg hpos⟩
    · exact .inl (by omega)

variable (h : Levelled (wrap code) code depth)
include h

private theorem Known.visit (k : Known code depth s) (hr : Reached code n) (hi : code[n]? = some i) :
    ∃ s', visit code n i (depth n) s = .ok s' ∧ Known code depth s' := by
  have hsend {s : DepthState} {b : Bool} {target : Int} (k : Known code depth s) (hf : Flows code n b target) :
      ∃ t : Nat, target = t ∧ t < code.size ∧ ∃ s', Sends (wrap code (i.after (depth n))) t s s' ∧ Known code depth s' := by
    obtain ⟨t, rfl, hlt, hd⟩ := h.follows hr hi hf
    exact ⟨t, rfl, hlt, hd ▸ k.send (.step hr hf hlt)⟩
  have hbranch : ∃ s₁, (∀ dest, i.dest? = some dest → ∃ t : Nat, dest.target = t ∧ t < code.size ∧
      Sends (wrap code (i.after (depth n))) t (s.raise (wrap code (i.after (depth n)))) s₁) ∧
      (i.dest? = none → s₁ = s.raise (wrap code (i.after (depth n)))) ∧ Known code depth s₁ := by
    cases hd : i.dest? with
    | none => exact ⟨_, nofun, fun _ => rfl, k.raise hr hi⟩
    | some dest =>
      obtain ⟨t, ht, hlt, s₁, hs, k₁⟩ := hsend (k.raise hr hi) (.jump hi hd)
      exact ⟨s₁, fun dest' hd' => by cases hd'; exact ⟨t, ht, hlt, hs⟩, nofun, k₁⟩
  obtain ⟨s₁, hdest, hnone, k₁⟩ := hbranch
  cases hf : i.fallsThrough with
  | false =>
    exact ⟨s₁, (visit_eq_ok k.size_eq).mpr ⟨s₁, h.free hr hi, hdest, hnone, by simp [hf], fun _ => rfl⟩, k₁⟩
  | true =>
    obtain ⟨t, ht, hlt, s', hs, k'⟩ := hsend k₁ (.next hi hf)
    obtain rfl := Int.ofNat_inj.mp ht
    exact ⟨s', (visit_eq_ok k.size_eq).mpr ⟨s₁, h.free hr hi, hdest, hnone, fun _ => ⟨hlt, hs⟩, by simp [hf]⟩, k'⟩

private theorem Known.visitAll (k : Known code depth s) (rounds : Nat) :
    ∃ s', visitAll code rounds s = .ok s' ∧ Known code depth s' := by
  induction rounds generalizing s with
  | zero => exact ⟨s, rfl, k⟩
  | succ rounds ih =>
    unfold Machine.visitAll
    split
    · exact ⟨s, rfl, k⟩
    · rename_i n work hw
      obtain ⟨hr, hd⟩ := k.work n (hw ▸ List.mem_cons_self ..)
      obtain ⟨i, hi⟩ := hr.exists_instr
      have k' : Known code depth { s with work := work } :=
        ⟨k.size_eq, k.found, fun m hm => k.work m (hw ▸ List.mem_cons_of_mem n hm), k.greatest⟩
      obtain ⟨s₁, h₁, k₁⟩ := k'.visit h hr hi
      simp only [hi, hd, h₁, bind, Except.bind]
      exact ih k₁

end

theorem depths_eq {code : Array Instr} (hpos : 0 < code.size) :
    depths code = visitAll code (roundBound code) (.initial code) :=
  if_neg (by simpa [Array.isEmpty] using Nat.ne_of_gt hpos)

theorem initial_depth {code : Array Instr} {n : Nat} (hn : n < code.size) :
    (DepthState.initial code).depth[n]? = some (if n = 0 then 0 else unset) := by
  by_cases h0 : n = 0
  · subst h0
    simp [DepthState.initial, hn]
  · simp [DepthState.initial, hn, h0, Ne.symm h0]

theorem initial_size (code : Array Instr) : (DepthState.initial code).depth.size = code.size := by
  simp [DepthState.initial]

/-- Where depths fit along control, just those are found, and the bound is zero or the depth behind an instruction. -/
theorem Levelled.depths_ok {code : Array Instr} {depth : Nat → Int} (h : Levelled (wrap code) code depth)
    (hpos : 0 < code.size) : ∃ s, depths code = .ok s ∧ (s.greatest : Int) ∈ depthsBehind (wrap code) code depth := by
  have k : Known code depth (.initial code) := by
    refine ⟨initial_size code, fun n d hn => ?_, fun n hn => ?_, .inl rfl⟩
    · have hlt : n < code.size := initial_size code ▸ (Array.getElem?_eq_some_iff.mp hn).1
      rw [initial_depth hlt, Option.some.injEq] at hn
      by_cases h0 : n = 0
      · subst h0
        exact .inr (hn.symm.trans h.entry.symm)
      · exact .inl (hn.symm.trans (if_neg h0))
    · obtain rfl := List.mem_singleton.mp hn
      exact ⟨.entry hpos, by rw [initial_depth hpos, if_pos rfl, h.entry]⟩
  obtain ⟨s, hs, k⟩ := k.visitAll h (roundBound code)
  exact ⟨s, (depths_eq hpos).trans hs, k.greatest⟩

end WhileStack.Machine
