import WhileStack.Proofs.Exec
import WhileStack.Proofs.Machine.Natural

/-! The check of the stack is exact in the arithmetic of machine integers: it accepts a code just where the instructions that
control gets to have depths that fit, and it gives the greatest of them. Depths that no machine integer holds are the only
difference to the arithmetic of all integers, and where no list has a negative length there are none. -/
namespace WhileStack.Machine

section
variable {code : Array Instr} {depth : Nat → Int} {s : DepthState} {m : Nat}

theorem maxDepth_eq_ok : maxDepth code = .ok m ↔ ∃ s, depths code = .ok s ∧ s.greatest = m := by
  rw [maxDepth]
  cases depths code <;> simp [Except.map]

/-- With depths that fit the check accepts, and its bound is the greatest of them. -/
private theorem Levelled.isGreatest (h : Levelled (wrap code) code depth) (hpos : 0 < code.size) :
    ∃ s, depths code = .ok s ∧ IsGreatest (depthsBehind (wrap code) code depth) (s.greatest : Int) := by
  obtain ⟨s, hs, hg⟩ := h.depths_ok hpos
  obtain ⟨depth', f⟩ := depths_finds hs
  refine ⟨s, hs, hg, ?_⟩
  rintro k (rfl | ⟨n, i, hr, hi, rfl⟩)
  · exact Int.natCast_nonneg _
  · rw [h.unique f.levelled hr]
    exact f.le _ (.inr ⟨n, i, hr, hi, rfl⟩)

private theorem Levelled.maxDepth_eq_ok_iff (h : Levelled (wrap code) code depth) (hpos : 0 < code.size) :
    maxDepth code = .ok m ↔ IsGreatest (depthsBehind (wrap code) code depth) (m : Int) := by
  obtain ⟨s, hs, hg⟩ := h.isGreatest hpos
  simp only [maxDepth_eq_ok, hs, Except.ok.injEq, exists_eq_left']
  exact ⟨fun he => he ▸ hg, fun hm => Int.ofNat_inj.mp (hg.unique hm)⟩

end

/-! Instructions that control does not get to make no difference. -/

section
variable {code code' : Array Instr} {s : DepthState} {n : Nat} {d : Int} {i : Instr} {target : Int}

/-- What follows an instruction, next or by a branch, is where control gets to. -/
private theorem reached_of_flows {b : Bool} (hr : Reached code n) (hf : Flows code n b target) (t : Nat)
    (ht : target = t) (hlt : t < code.size) : Reached code t := .step hr (ht ▸ hf) hlt

variable (hsize : code'.size = code.size) (hsame : ∀ n, Reached code n → code'[n]? = code[n]?)
include hsize hsame

private theorem flow_congr (hr : Reached code n) (ht : ∀ t : Nat, target = t → t < code.size → Reached code t) :
    flow code' n target d s = flow code n target d s := by
  have herr (cause : DepthCause) : depthError code' n cause = depthError code n cause := by
    rw [depthError, depthError, hsame n hr]
  unfold flow
  simp only [hsize, herr]
  split
  · rfl
  split
  · rfl
  rename_i hrange hend
  obtain ⟨t, rfl⟩ := Int.eq_ofNat_of_zero_le (a := target) (by omega)
  simp only [Int.toNat_natCast, depthError, hsame t (ht t rfl (by omega))]

private theorem visit_congr (hr : Reached code n) (hi : code[n]? = some i) :
    visit code' n i d s = visit code n i d s := by
  have herr (cause : DepthCause) : depthError code' n cause = depthError code n cause := by
    rw [depthError, depthError, hsame n hr]
  have hwrap (k : Int) : wrap code' k = wrap code k := by rw [wrap, wrap, wordBound, wordBound, hsize]
  have hnext (s : DepthState) :
      (if i.fallsThrough = true then flow code' n (n + 1 : Nat) (wrap code (i.after d)) s else .ok s) =
        if i.fallsThrough = true then flow code n (n + 1 : Nat) (wrap code (i.after d)) s else .ok s := by
    split
    · rename_i hf
      exact flow_congr hsize hsame hr (reached_of_flows hr (.next hi hf))
    · rfl
  unfold visit
  simp only [herr, hwrap]
  split
  · rfl
  cases hd : i.dest? with
  | none => exact hnext _
  | some dest =>
    simp only [flow_congr hsize hsame hr (reached_of_flows hr (.jump hi hd))]
    exact Partial.then_congr fun s' _ => hnext s'

private theorem visitAll_congr (rounds : Nat) (ho : Orderly code s) :
    visitAll code' rounds s = visitAll code rounds s := by
  induction rounds generalizing s with
  | zero => rfl
  | succ rounds ih =>
    cases hwork : s.work with
    | nil => simp only [visitAll, hwork]
    | cons n work =>
      obtain ⟨i, d, hi, hd⟩ := ho.exists_head hwork
      have hr : Reached code n := ho.reached n (hwork ▸ List.mem_cons_self ..)
      simp only [visitAll, hwork, hsame n hr, hi, hd, visit_congr hsize hsame hr hi]
      exact Partial.then_congr fun s₁ h₁ => ih (ho.round hwork hi hd h₁).1

/-- The depths, or what is wrong with them, depend on the instructions that control gets to. -/
theorem depths_congr : depths code' = depths code := by
  unfold depths
  simp only [Array.isEmpty, hsize]
  by_cases hne : code.size = 0
  · simp only [hne, decide_true, if_true]
  · have hinitial : DepthState.initial code' = .initial code := by rw [DepthState.initial, DepthState.initial, hsize]
    simp only [hne, decide_false, Bool.false_eq_true, if_false, roundBound, hsize, hinitial]
    exact visitAll_congr hsize hsame _ (initial_orderly (Nat.pos_of_ne_zero hne))

end

section
variable {range : Int → Int} {code code' : Array Instr} {depth : Nat → Int} {n : Nat} {b : Bool} {t : Int}

private theorem flows_congr (hsame : code'[n]? = code[n]?) : Flows code' n b t ↔ Flows code n b t := by
  constructor
  · rintro (⟨hi, hf⟩ | ⟨hi, hd⟩)
    · exact .next (hsame ▸ hi) hf
    · exact .jump (hsame ▸ hi) hd
  · rintro (⟨hi, hf⟩ | ⟨hi, hd⟩)
    · exact .next (hsame ▸ hi) hf
    · exact .jump (hsame ▸ hi) hd

variable (h : Levelled range code depth) (hpos : 0 < code.size) (hsame : ∀ n, Reached code n → code'[n]? = code[n]?)
include h hpos hsame

/-- Control that stays inside one code gets to no more of another one that is the same there, whatever its length. -/
private theorem Levelled.reached_iff : Reached code' n ↔ Reached code n := by
  have hlt {n : Nat} (hr : Reached code n) : n < code'.size := by
    obtain ⟨i, hi⟩ := hr.exists_instr
    exact (Array.getElem?_eq_some_iff.mp ((hsame n hr).trans hi)).1
  constructor
  · intro hr
    induction hr with
    | entry => exact .entry hpos
    | step _ hf _ ih =>
      obtain ⟨i, hi⟩ := ih.exists_instr
      have hf := (flows_congr (hsame _ ih)).mp hf
      obtain ⟨m, hm, hlt, -⟩ := h.follows ih hi hf
      obtain rfl := Int.ofNat_inj.mp hm
      exact .step ih hf hlt
  · intro hr
    induction hr with
    | entry => exact .entry (hlt (.entry hpos))
    | step hn hf ht ih => exact .step ih ((flows_congr (hsame _ hn)).mpr hf) (hlt (.step hn hf ht))

/-- Depths that fit do so with anything else where control does not get to. -/
private theorem Levelled.of_same : Levelled range code' depth := by
  have hreached {n : Nat} (hr : Reached code' n) : Reached code n := (h.reached_iff hpos hsame).mp hr
  have hfound {n : Nat} {i : Instr} (hr : Reached code' n) (hi : code'[n]? = some i) : code[n]? = some i :=
    hsame n (hreached hr) ▸ hi
  refine ⟨h.entry, fun hr hi => h.real (hreached hr) (hfound hr hi), fun hr hi => h.resolved (hreached hr) (hfound hr hi),
    fun hr hi => h.enough (hreached hr) (hfound hr hi), fun hr hi => h.leaves (hreached hr) (hfound hr hi),
    fun hr hi hf => ?_⟩
  have hf := (flows_congr (hsame _ (hreached hr))).mp hf
  obtain ⟨m, rfl, hlt, hd⟩ := h.follows (hreached hr) (hfound hr hi) hf
  have hm : Reached code' m := (h.reached_iff hpos hsame).mpr (.step (hreached hr) hf hlt)
  exact ⟨m, rfl, hm.lt, hd⟩

private theorem Levelled.depthsBehind_eq : depthsBehind range code' depth = depthsBehind range code depth := by
  have hiff (n : Nat) (i : Instr) : (Reached code' n ∧ code'[n]? = some i) ↔ Reached code n ∧ code[n]? = some i := by
    rw [h.reached_iff hpos hsame]
    exact and_congr_right fun hr => by rw [hsame n hr]
  simp only [depthsBehind, ← and_assoc, hiff]

end

/-- As long as machine integers have the same range, the check accepts a code with anything else where control does not get
to, whatever its length. -/
private theorem maxDepth_of_same {code code' : Array Instr} {m : Nat} (hsame : ∀ n, Reached code n → code'[n]? = code[n]?)
    (hbound : wordBound code' = wordBound code) (hm : maxDepth code = .ok m) : maxDepth code' = .ok m := by
  have hwrap : wrap code' = wrap code := funext fun k => by rw [wrap, wrap, hbound]
  obtain ⟨s, hs, -⟩ := maxDepth_eq_ok.mp hm
  obtain ⟨depth, hpos, h, -, -⟩ := depths_finds hs
  have hpos' : 0 < code'.size := ((h.reached_iff hpos hsame).mpr (.entry hpos)).lt
  have h' : Levelled (wrap code') code' depth := hwrap ▸ h.of_same hpos hsame
  rw [h'.maxDepth_eq_ok_iff hpos', hwrap, h.depthsBehind_eq hpos hsame]
  exact (h.maxDepth_eq_ok_iff hpos).mp hm

/-- Depths that fit in the arithmetic of all integers and that machine integers hold fit in that of machine integers. -/
private theorem Levelled.in_words {code : Array Instr} {depth : Nat → Int} (h : Levelled id code depth)
    (hword : ∀ k ∈ depthsBehind id code depth, k < wordBound code) :
    Levelled (wrap code) code depth ∧ depthsBehind (wrap code) code depth = depthsBehind id code depth := by
  have hwrap {n : Nat} {i : Instr} (hr : Reached code n) (hi : code[n]? = some i) :
      id (i.after (depth n)) = wrap code (i.after (depth n)) := by
    have hnonneg := h.after_nonneg hr hi
    have hlt : i.after (depth n) < wordBound code := hword _ (.inr ⟨n, i, hr, hi, rfl⟩)
    exact (wrap_eq ⟨by omega, hlt⟩).symm
  exact ⟨h.congr hwrap, (depthsBehind_congr hwrap).symm⟩

/-- Without negative lengths machine integers hold all depths. -/
private theorem Counted.lt_wordBound {code : Array Instr} {depth : Nat → Int} (hc : Counted code)
    (h : Levelled id code depth) : ∀ k ∈ depthsBehind id code depth, k < wordBound code := by
  have hsize := size_lt_wordBound code
  rintro k (rfl | ⟨n, i, hr, hi, rfl⟩)
  · omega
  · have := h.after_le hc (fun _ _ => Int.le_refl _) hr hi
    simp only [id]
    omega

/-- In the arithmetic of machine integers the check accepts a code just where control comes to every index at one depth and
finds there what it needs; then it gives the greatest depth behind an instruction. Its rounds come to an end. Instructions
that control does not get to make no difference, and where the check accepts, not even to how long the code is. Depths in
the arithmetic of all integers are the same as long as machine integers hold them, and without negative lengths they do. -/
theorem maxDepth_exact (code : Array Instr) :
    (0 < code.size → ∀ r, Loops code (.initial code) r ↔ r = depths code) ∧
    ((∃ m, maxDepth code = .ok m) ↔ 0 < code.size ∧ ∃ depth, Levelled (wrap code) code depth) ∧
    (∀ depth depth', Levelled (wrap code) code depth → Levelled (wrap code) code depth' →
      ∀ n, Reached code n → depth n = depth' n) ∧
    (∀ depth, 0 < code.size → Levelled (wrap code) code depth →
      ∀ m : Nat, maxDepth code = .ok m ↔ IsGreatest (depthsBehind (wrap code) code depth) (m : Int)) ∧
    (∀ code' : Array Instr, (∀ n, Reached code n → code'[n]? = code[n]?) →
      (code'.size = code.size → maxDepth code' = maxDepth code) ∧
      (wordBound code' = wordBound code → ∀ m, maxDepth code = .ok m → maxDepth code' = .ok m)) ∧
    (∀ depth, Levelled id code depth → (∀ k ∈ depthsBehind id code depth, k < wordBound code) →
      Levelled (wrap code) code depth ∧ depthsBehind (wrap code) code depth = depthsBehind id code depth) ∧
    (Counted code → ∀ depth, (Levelled (wrap code) code depth ↔ Levelled id code depth) ∧
      (Levelled id code depth → ∀ k ∈ depthsBehind id code depth, k < wordBound code)) := by
  refine ⟨fun hpos r => loops_iff hpos, ⟨fun ⟨m, hm⟩ => ?_, fun ⟨hpos, depth, h⟩ => ?_⟩,
    fun _ _ h h' _ hr => h.unique h' hr, fun depth hpos h m => h.maxDepth_eq_ok_iff hpos,
    fun code' hsame => ⟨fun hsize => ?_, fun hbound m => maxDepth_of_same hsame hbound⟩,
    fun _ h => h.in_words, fun hc _ => ⟨hc.levelled_iff, hc.lt_wordBound⟩⟩
  · obtain ⟨s, hs, -⟩ := maxDepth_eq_ok.mp hm
    obtain ⟨depth, hpos, h, -, -⟩ := depths_finds hs
    exact ⟨hpos, depth, h⟩
  · obtain ⟨s, hs, -⟩ := h.isGreatest hpos
    exact ⟨s.greatest, maxDepth_eq_ok.mpr ⟨s, hs, rfl⟩⟩
  · rw [maxDepth, maxDepth, depths_congr hsize hsame]

/-- A branch whose ways meet at one depth, with an instruction behind a jump that control does not get to. -/
example : maxDepth #[.ldc (.bool true), .ifeq (.toIndex 4), .ldc (.int 1), .goto (.toIndex 6), .ldc (.int 2),
    .goto (.toIndex 6), .ldc (.int 3), .arith .add, .print .int, .goto (.toIndex 0), .mark 7] = .ok 2 := by decide

/-- Two instructions that have the depths 0 and `2 ^ 63 + 1`, of which the check takes the second for a negative one. -/
private def huge : Array Instr := #[.newList .int (-0x8000000000000000), .unreachable]

private theorem huge_levelled : Levelled id huge fun n => if n = 0 then 0 else 0x8000000000000001 := by
  have hcode {n : Nat} {i : Instr} (hi : huge[n]? = some i) :
      n = 0 ∧ i = .newList .int (-0x8000000000000000) ∨ n = 1 ∧ i = .unreachable := by
    rcases n with _ | _ | n
    · exact .inl ⟨rfl, (Option.some.inj hi).symm⟩
    · exact .inr ⟨rfl, (Option.some.inj hi).symm⟩
    · simp [huge] at hi
  refine ⟨rfl, fun _ hi => ?_, fun _ hi hd => ?_, fun _ hi => ?_, fun _ hi hret => ?_, fun _ hi hf => ?_⟩
  · rcases hcode hi with ⟨-, rfl⟩ | ⟨-, rfl⟩ <;> rfl
  · rcases hcode hi with ⟨-, rfl⟩ | ⟨-, rfl⟩ <;> cases hd
  · rcases hcode hi with ⟨rfl, rfl⟩ | ⟨rfl, rfl⟩ <;> decide
  · rcases hcode hi with ⟨-, rfl⟩ | ⟨-, rfl⟩ <;> cases hret
  · rcases hf with ⟨hj, hf⟩ | ⟨hj, hd⟩
    · rcases hcode hj with ⟨rfl, rfl⟩ | ⟨-, rfl⟩
      · obtain rfl := Option.some.inj (hi.symm.trans hj)
        exact ⟨1, rfl, by decide, by decide⟩
      · cases hf
    · rcases hcode hj with ⟨-, rfl⟩ | ⟨-, rfl⟩ <;> cases hd

/-- Depths that fit in the arithmetic of all integers are not enough where a list has a negative length. -/
theorem huge_refused : 0 < huge.size ∧ (∃ depth, Levelled id huge depth) ∧ (¬ ∃ m, maxDepth huge = .ok m) ∧
    maxDepth huge = .error ⟨1, some .unreachable, .underflow 0 (-0x7fffffffffffffff)⟩ := by
  have h : maxDepth huge = .error ⟨1, some .unreachable, .underflow 0 (-0x7fffffffffffffff)⟩ := by rfl
  exact ⟨by decide, ⟨_, huge_levelled⟩, by simp [h], h⟩

end WhileStack.Machine
