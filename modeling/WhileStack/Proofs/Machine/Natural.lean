import WhileStack.Proofs.Machine.Assigned
import Mathlib.Data.Finset.Card

/-! Code whose lists all have a length. Depths are natural numbers there, no greater than the code is long, so that they
never wrap around. -/
namespace WhileStack.Machine

/-- No list has a negative length. -/
def Counted (code : Array Instr) : Prop := ∀ i ∈ code, 0 ≤ i.takes

instance (code : Array Instr) : Decidable (Counted code) := inferInstanceAs (Decidable (∀ i ∈ code, 0 ≤ i.takes))

/-- The depth behind an instruction that finds its operands. -/
def Instr.depthAfter (i : Instr) (d : Nat) : Nat := d - i.pops + i.pushes

/-- The depth at an index, if it has been reached. -/
def DepthState.at? (s : DepthState) (n : Nat) : Option Int := s.depth[n]?.filter (· ≠ unset)

theorem DepthState.at?_eq_some {s : DepthState} {n : Nat} {d : Int} :
    s.at? n = some d ↔ s.depth[n]? = some d ∧ d ≠ unset := by
  simp [at?, Option.filter_eq_some_iff]

section
variable {code : Array Instr} {i : Instr} {n : Nat}

theorem Instr.takes_eq (h : 0 ≤ i.takes) : i.takes = i.pops := by
  cases i <;> first | rfl | exact (Int.toNat_of_nonneg h).symm

theorem Instr.takes_of_dest? {dest : Dest} (h : i.dest? = some dest) : i.takes = i.pops := by
  cases i <;> first | rfl | cases h

theorem Instr.after_natCast {d : Nat} (ht : i.takes = i.pops) (h : i.pops ≤ d) : i.after d = i.depthAfter d := by
  unfold after depthAfter
  omega

theorem Instr.pushes_le (i : Instr) : i.pushes ≤ 1 := by
  cases i with
  | call sig =>
    simp only [pushes, Ty.width]
    split <;> omega
  | _ => simp [pushes]

theorem Counted.takes_eq (hc : Counted code) (hi : code[n]? = some i) : i.takes = i.pops :=
  Instr.takes_eq (hc i (Array.mem_of_getElem? hi))

/-! Depths grow by one at most, so on the way to a depth control comes by all that are smaller. -/

variable {depth : Nat → Int}

/-- Control gets to as many indices as there are depths up to one of them. -/
theorem Reached.depth_lt (h₀ : depth 0 = 0)
    (hstep : ∀ {n b} {t : Nat}, Reached code n → Flows code n b t → t < code.size → depth t ≤ depth n + 1)
    (hr : Reached code n) : depth n < code.size := by
  have hall {n : Nat} (hr : Reached code n) (v : Nat) (hv : v ≤ depth n) : ∃ m, Reached code m ∧ depth m = v := by
    induction hr with
    | entry hpos => exact ⟨0, .entry hpos, by omega⟩
    | @step n b t hn hf hlt ih =>
      by_cases hle : v ≤ depth n
      · exact ih hle
      · exact ⟨t, .step hn hf hlt, by have := hstep hn hf hlt; omega⟩
  by_contra hge
  have hsub : (Finset.range (code.size + 1)).image (Nat.cast : Nat → Int) ⊆ (Finset.range code.size).image depth := by
    intro k hk
    obtain ⟨v, hv, rfl⟩ := Finset.mem_image.mp hk
    have hv := Finset.mem_range.mp hv
    obtain ⟨m, hm, hd⟩ := hall hr v (by omega)
    exact Finset.mem_image.mpr ⟨m, Finset.mem_range.mpr hm.lt, hd⟩
  have hcard := Finset.card_le_card hsub
  rw [Finset.card_image_of_injective _ fun _ _ => Int.ofNat_inj.mp, Finset.card_range] at hcard
  have := Finset.card_image_le (s := Finset.range code.size) (f := depth)
  rw [Finset.card_range] at this
  omega

variable {range range' : Int → Int}

/-- Arithmetic matters only for the depths that come up. -/
theorem Levelled.congr (h : Levelled range code depth)
    (hrange : ∀ {n i}, Reached code n → code[n]? = some i → range (i.after (depth n)) = range' (i.after (depth n))) :
    Levelled range' code depth where
  entry := h.entry
  real := h.real
  resolved := h.resolved
  enough := h.enough
  leaves := h.leaves
  follows hr hi hf := by
    obtain ⟨m, hm, hlt, hd⟩ := h.follows hr hi hf
    exact ⟨m, hm, hlt, hd.trans (hrange hr hi)⟩

theorem depthsBehind_congr
    (hrange : ∀ {n i}, Reached code n → code[n]? = some i → range (i.after (depth n)) = range' (i.after (depth n))) :
    depthsBehind range code depth = depthsBehind range' code depth := by
  unfold depthsBehind
  congr 1
  ext k
  constructor <;> rintro ⟨n, i, hr, hi, rfl⟩
  · exact ⟨n, i, hr, hi, hrange hr hi⟩
  · exact ⟨n, i, hr, hi, (hrange hr hi).symm⟩

/-- An instruction that finds its operands leaves no less than nothing. -/
theorem Levelled.after_nonneg (h : Levelled range code depth) (hr : Reached code n) (hi : code[n]? = some i) :
    0 ≤ i.after (depth n) := by
  have := h.enough hr hi
  unfold Instr.after
  omega

theorem wrap_le {k : Int} (h : 0 ≤ k) : wrap code k ≤ k := by
  by_cases hk : k < wordBound code
  · rw [wrap_eq ⟨by omega, hk⟩]
  · have := (wrap_inWord code k).2
    omega

variable (hc : Counted code) (hrange : ∀ k, 0 ≤ k → range k ≤ k)
include hc hrange

theorem Levelled.after_le (h : Levelled range code depth) (hr : Reached code n) (hi : code[n]? = some i) :
    i.after (depth n) ≤ code.size := by
  have hgrow {n : Nat} {i : Instr} (hi : code[n]? = some i) : i.after (depth n) ≤ depth n + 1 := by
    have := hc i (Array.mem_of_getElem? hi)
    have := i.pushes_le
    unfold Instr.after
    omega
  have hlt : depth n < code.size := by
    refine Reached.depth_lt h.entry (fun {n b t} hn hf hlt => ?_) hr
    obtain ⟨i, hi⟩ := hn.exists_instr
    obtain ⟨m, hm, -, hd⟩ := h.follows hn hi hf
    obtain rfl := Int.ofNat_inj.mp hm
    have := hrange _ (h.after_nonneg hn hi)
    have := hgrow hi
    omega
  have := hgrow hi
  omega

theorem Levelled.wrap_after (h : Levelled range code depth) (hr : Reached code n) (hi : code[n]? = some i) :
    wrap code (i.after (depth n)) = i.after (depth n) :=
  wrap_eq (inWord_of_le (by have := h.after_nonneg hr hi; omega) (h.after_le hc hrange hr hi))

omit hrange in
/-- Without negative lengths the machine's integers are as good as all. -/
theorem Counted.levelled_iff : Levelled (wrap code) code depth ↔ Levelled id code depth :=
  ⟨fun h => h.congr fun hr hi => h.wrap_after hc (fun _ => wrap_le) hr hi,
    fun h => h.congr fun hr hi => (h.wrap_after hc (fun _ _ => Int.le_refl _) hr hi).symm⟩

end

/-! What the check finds in such code. -/

/-- An instruction that is reached at a depth finds its operands, and what follows has been found at the depth behind it. -/
structure Passes (code : Array Instr) (s : DepthState) (n d : Nat) (i : Instr) : Prop where
  found : code[n]? = some i
  real : i.isMark = false
  enough : i.pops ≤ d
  leaves : i.isReturn = true → d = i.pops
  le : d ≤ s.greatest
  branch : ∀ dest, i.dest? = some dest → ∃ t : Nat, dest.target = t ∧ s.at? t = some (i.depthAfter d : Int)
  next : i.fallsThrough = true → s.at? (n + 1) = some (i.depthAfter d : Int)

/-- An instruction fits the depths that are given for it and for those that may follow. -/
structure Fits (size : Nat) (depth : Nat → Nat) (n : Nat) (i : Instr) : Prop where
  takes_eq : i.takes = i.pops
  free : blocked i (depth n) = none
  branch : ∀ d, i.dest? = some d → ∃ t : Nat, d.target = t ∧ t < size ∧ depth t = i.depthAfter (depth n)
  next : i.fallsThrough = true → n + 1 < size ∧ depth (n + 1) = i.depthAfter (depth n)

section
variable {code : Array Instr} {s : DepthState} {n d : Nat}

theorem at?_zero (h : depths code = .ok s) : s.at? 0 = some 0 := by
  obtain ⟨depth, f⟩ := depths_finds h
  exact DepthState.at?_eq_some.mpr ⟨(f.found 0 0 (by decide)).mpr ⟨.entry f.pos, f.levelled.entry⟩, by decide⟩

/-- The depths that are found fit in the arithmetic of all integers. -/
private theorem Counted.finds (hc : Counted code) (h : depths code = .ok s) :
    ∃ depth, Levelled id code depth ∧ (∀ n (d : Nat), s.at? n = some (d : Int) ↔ Reached code n ∧ depth n = d) ∧
      ∀ k ∈ depthsBehind id code depth, k ≤ s.greatest := by
  obtain ⟨depth, f⟩ := depths_finds h
  have hl := hc.levelled_iff.mp f.levelled
  have hbehind : depthsBehind (wrap code) code depth = depthsBehind id code depth :=
    depthsBehind_congr fun hr hi => hl.wrap_after hc (fun _ _ => Int.le_refl _) hr hi
  refine ⟨depth, hl, fun n d => ?_, hbehind ▸ f.le⟩
  have hne : (d : Int) ≠ unset := by unfold unset; omega
  rw [DepthState.at?_eq_some, and_iff_left hne]
  exact f.found n d hne

/-- Where the check has found a depth there is an instruction that passes it on. -/
theorem Counted.passes (hc : Counted code) (h : depths code = .ok s) (hat : s.at? n = some (d : Int)) :
    ∃ i, Passes code s n d i := by
  obtain ⟨depth, hl, hfound, hle⟩ := hc.finds h
  obtain ⟨hr, hdepth⟩ := (hfound n d).mp hat
  obtain ⟨i, hi⟩ := hr.exists_instr
  have htakes := hc.takes_eq hi
  have henough : i.pops ≤ d := by
    have := hl.enough hr hi
    omega
  have hafter : i.after (depth n) = i.depthAfter d := by rw [hdepth, Instr.after_natCast htakes henough]
  have hgoes {b : Bool} {t : Int} (hf : Flows code n b t) : ∃ m : Nat, t = m ∧ s.at? m = some (i.depthAfter d : Int) := by
    obtain ⟨m, rfl, hlt, hd⟩ := hl.follows hr hi hf
    exact ⟨m, rfl, (hfound m _).mpr ⟨.step hr hf hlt, hd.trans hafter⟩⟩
  refine ⟨i, hi, hl.real hr hi, henough, fun hret => ?_, ?_, fun dest hdest => hgoes (.jump hi hdest), fun hf => ?_⟩
  · have := hl.leaves hr hi hret
    omega
  · have := hle _ (hl.mem_depthsBehind hr)
    omega
  · obtain ⟨m, hm, hat⟩ := hgoes (.next hi hf)
    obtain rfl := Int.ofNat_inj.mp hm
    exact hat

/-- Code whose instructions all fit depths that start at zero is accepted. -/
theorem maxDepth_ok (depth : Nat → Nat) (hs : 0 < code.size) (hd : depth 0 = 0)
    (f : ∀ n i, code[n]? = some i → Fits code.size depth n i) : ∃ m, maxDepth code = .ok m := by
  have hc : Counted code := fun i hi => by
    obtain ⟨n, hn⟩ := Array.mem_iff_getElem?.mp hi
    rw [(f n i hn).takes_eq]
    exact Int.natCast_nonneg _
  have hfree {n : Nat} {i : Instr} (hi : code[n]? = some i) := blocked_eq_none.mp (f n i hi).free
  have hafter {n : Nat} {i : Instr} (hi : code[n]? = some i) : i.after (depth n) = i.depthAfter (depth n) :=
    Instr.after_natCast (f n i hi).takes_eq (by have := (hfree hi).2.2.1; have := (f n i hi).takes_eq; omega)
  have hl : Levelled id code fun n => depth n := by
    refine ⟨by exact_mod_cast hd, fun _ hi => (hfree hi).1, fun _ hi => (hfree hi).2.1 _, fun _ hi => (hfree hi).2.2.1,
      fun _ hi => (hfree hi).2.2.2, fun {n i b t} _ hi hf => ?_⟩
    cases hf with
    | next hj hfall =>
      obtain rfl := Option.some.inj (hi.symm.trans hj)
      obtain ⟨hlt, hd⟩ := (f n i hi).next hfall
      exact ⟨n + 1, rfl, hlt, by rw [hd, hafter hi]; rfl⟩
    | jump hj hdest =>
      obtain rfl := Option.some.inj (hi.symm.trans hj)
      obtain ⟨t, ht, hlt, hd⟩ := (f n i hi).branch _ hdest
      exact ⟨t, ht, hlt, by rw [hd, hafter hi]; rfl⟩
  obtain ⟨s, hs, -⟩ := (hc.levelled_iff.mpr hl).depths_ok hs
  exact ⟨s.greatest, by simp [maxDepth, hs, Except.map]⟩

end

end WhileStack.Machine
