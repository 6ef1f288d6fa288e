import WhileStack.Proofs.Machine.Depth
import Mathlib.Algebra.GroupWithZero.Nat

/-! What the check of the stack has found when it accepts: visits at which every instruction finds its operands, passes on
its depth to whatever follows, and that are one for each index. Its rounds come to an end by themselves.

An index that got the depth which stands for none is put to work each time control comes there. Such an index is always
the next one to be visited, and it hands this depth on only to the index behind it. -/
namespace WhileStack.Machine

/-- Every index that is to be visited has a depth. -/
private def Settled (s : DepthState) : Prop := ∀ n ∈ s.work, s.depth[n]? ≠ some unset

/-- What the check keeps from round to round. -/
structure Orderly (code : Array Instr) (s : DepthState) : Prop where
  size_eq : s.depth.size = code.size
  reached : ∀ n ∈ s.work, Reached code n
  settled : ∀ n ∈ s.work.tail, s.depth[n]? ≠ some unset
  inWord : ∀ (n : Nat) d, s.depth[n]? = some d → InWord code d

/-- A visit may put every index behind it to work once more if there is no depth, and pays for one depth otherwise. -/
def DepthState.weight (s : DepthState) (n : Nat) : Nat :=
  if s.depth[n]? = some unset then s.depth.size - n else s.depth.size + 1

/-- What the rounds still cost. -/
def DepthState.debt (s : DepthState) : Nat :=
  s.depth.countP (· = unset) * (s.depth.size + 1) + (s.work.map s.weight).sum

/-- The check goes on: depths stay, and an index that gets one is put to work. -/
private structure Onward (s s' : DepthState) : Prop where
  greatest_le : s.greatest ≤ s'.greatest
  kept : ∀ (n : Nat) d, s.depth[n]? = some d → d ≠ unset → s'.depth[n]? = some d
  work : ∀ n ∈ s.work, n ∈ s'.work
  new : ∀ (n : Nat) d, s'.depth[n]? = some d → s.depth[n]? = some d ∨ n ∈ s'.work

section
variable {s s₁ s' : DepthState} {n t : Nat} {d e : Int}

private theorem Onward.refl : Onward s s := ⟨Nat.le_refl _, fun _ _ h _ => h, fun _ h => h, fun _ _ h => .inl h⟩

private theorem Onward.trans (h : Onward s s₁) (h' : Onward s₁ s') : Onward s s' where
  greatest_le := Nat.le_trans h.greatest_le h'.greatest_le
  kept n d hn hd := h'.kept n d (h.kept n d hn hd) hd
  work n hn := h'.work n (h.work n hn)
  new n d hn := by
    rcases h'.new n d hn with hn | hn
    · exact (h.new n d hn).imp_right (h'.work n)
    · exact .inr hn

private theorem Onward.raise (d : Int) : Onward s (s.raise d) :=
  ⟨Nat.le_max_left .., fun _ _ h _ => h, fun _ h => h, fun _ _ h => .inl h⟩

/-- Sending a depth changes it at one index only. -/
private theorem depth_setIfInBounds (ht : s.depth[t]? = some e) :
    (s.depth.setIfInBounds t d)[n]? = if t = n then some d else s.depth[n]? := by
  rw [Array.getElem?_setIfInBounds, if_pos (Array.getElem?_eq_some_iff.mp ht).1]

private theorem Sends.onward (h : Sends d t s s') : Onward s s' := by
  cases h with
  | old _ _ => exact .refl
  | new ht =>
    refine ⟨Nat.le_refl _, fun n e hn he => ?_, fun n hn => List.mem_cons_of_mem t hn, fun n e hn => ?_⟩
    · have hne : t ≠ n := by
        rintro rfl
        exact he (Option.some.inj (hn.symm.trans ht))
      rw [depth_setIfInBounds ht, if_neg hne]
      exact hn
    · by_cases htn : t = n
      · exact .inr (htn ▸ List.mem_cons_self ..)
      · rw [depth_setIfInBounds ht, if_neg htn] at hn
        exact .inl hn

/-- The index that the depth is sent to has it then, and is to be visited if that depth stands for none. -/
private theorem Sends.due (h : Sends d t s s') : s'.depth[t]? = some d ∧ (t ∈ s'.work ∨ d ≠ unset) := by
  cases h with
  | old ht hd => exact ⟨ht, .inr hd⟩
  | new ht => exact ⟨by rw [depth_setIfInBounds ht, if_pos rfl], .inl (List.mem_cons_self ..)⟩

private theorem Sends.mem_work (h : Sends d t s s') (hn : n ∈ s'.work) : n = t ∨ n ∈ s.work := by
  cases h with
  | old _ _ => exact .inr hn
  | new _ => exact List.mem_cons.mp hn

/-- Indices with a depth are not the one that a new depth is sent to. -/
private theorem Settled.kept (hs : Settled s) (ht : s.depth[t]? = some unset) (hn : n ∈ s.work) :
    (s.depth.setIfInBounds t d)[n]? = s.depth[n]? := by
  have hne : t ≠ n := by
    rintro rfl
    exact hs t hn ht
  rw [depth_setIfInBounds ht, if_neg hne]

private theorem Sends.settled_tail (h : Sends d t s s') (hs : Settled s) :
    ∀ n ∈ s'.work.tail, s'.depth[n]? ≠ some unset := by
  cases h with
  | old _ _ => exact fun n hn => hs n (List.mem_of_mem_tail hn)
  | new ht => exact fun n hn => (hs.kept ht hn).trans_ne (hs n hn)

private theorem Sends.settled (h : Sends d t s s') (hs : Settled s) (hd : d ≠ unset) : Settled s' := by
  cases h with
  | old _ _ => exact hs
  | new ht =>
    intro n hn
    rcases List.mem_cons.mp hn with rfl | hn
    · rw [depth_setIfInBounds ht, if_pos rfl]
      exact fun h => hd (Option.some.inj h)
    · exact (hs.kept ht hn).trans_ne (hs n hn)

private theorem Sends.inWord {code : Array Instr} (h : Sends d t s s') (hd : InWord code d)
    (hs : ∀ (n : Nat) e, s.depth[n]? = some e → InWord code e) : ∀ (n : Nat) e, s'.depth[n]? = some e → InWord code e := by
  cases h with
  | old _ _ => exact hs
  | new ht =>
    intro n e hn
    rw [depth_setIfInBounds ht] at hn
    split at hn
    · exact Option.some.inj hn ▸ hd
    · exact hs n e hn

private theorem Sends.orderly {code : Array Instr} (h : Sends d t s s') (ho : Orderly code s) (hs : Settled s)
    (ht : Reached code t) (hd : InWord code d) : Orderly code s' where
  size_eq := h.size_eq.trans ho.size_eq
  reached n hn := by
    rcases h.mem_work hn with rfl | hn
    · exact ht
    · exact ho.reached n hn
  settled := h.settled_tail hs
  inWord := h.inWord hd ho.inWord

/-- A depth that is sent costs as much as it saves, unless it stands for none. -/
private theorem Sends.debt_le (h : Sends d t s s') (hs : Settled s) :
    s'.debt ≤ s.debt + if d = unset then s.depth.size - t else 0 := by
  cases h with
  | old _ _ => exact Nat.le_add_right ..
  | new ht =>
    obtain ⟨hlt, hget⟩ := Array.getElem?_eq_some_iff.mp ht
    have hweights : s.work.map (DepthState.weight { s with depth := s.depth.setIfInBounds t d, work := t :: s.work }) =
        s.work.map s.weight := List.map_congr_left fun n hn => by
      simp only [DepthState.weight, hs.kept ht hn, Array.size_setIfInBounds]
    have hpos : 0 < s.depth.countP (· = unset) := Array.countP_pos_iff.mpr ⟨_, Array.getElem_mem hlt, by simpa using hget⟩
    have hcount : (s.depth.setIfInBounds t d).countP (· = unset) =
        s.depth.countP (· = unset) - 1 + if d = unset then 1 else 0 := by
      simp [Array.setIfInBounds, hlt, Array.countP_set, hget]
    have hweight : DepthState.weight { s with depth := s.depth.setIfInBounds t d, work := t :: s.work } t =
        if d = unset then s.depth.size - t else s.depth.size + 1 := by
      simp only [DepthState.weight, depth_setIfInBounds ht, if_true, Array.size_setIfInBounds, Option.some.injEq]
    simp only [DepthState.debt, List.map_cons, List.sum_cons, hweights, hcount, hweight, Array.size_setIfInBounds]
    obtain ⟨k, hk⟩ := Nat.exists_eq_add_of_lt hpos
    by_cases hd : d = unset
    · simp only [hd, if_true, hk, Nat.zero_add, Nat.add_sub_cancel]
      omega
    · simp only [hd, if_false, hk, Nat.zero_add, Nat.add_sub_cancel, Nat.add_zero, Nat.add_mul, Nat.one_mul]
      omega

end

section
variable {code : Array Instr} {s s₁ s' : DepthState} {n t : Nat} {i : Instr} {d : Int} {work : List Nat}

private theorem Visited.onward (v : Visited code n i d s s₁ s') : Onward s s' := by
  have hfirst : Onward s s₁ := by
    cases hdest : i.dest? with
    | none => exact v.straight hdest ▸ .raise _
    | some dest =>
      obtain ⟨t, -, -, hsend⟩ := v.branch dest hdest
      exact (Onward.raise _).trans hsend.onward
  cases hf : i.fallsThrough with
  | false => exact v.stay hf ▸ hfirst
  | true => exact hfirst.trans (v.next hf).2.onward

private theorem Visited.le_greatest (v : Visited code n i d s s₁ s') : wrap code (i.after d) ≤ s'.greatest := by
  have hraise : wrap code (i.after d) ≤ (s.raise (wrap code (i.after d))).greatest := by
    simp only [DepthState.raise]
    omega
  have hfirst : wrap code (i.after d) ≤ s₁.greatest := by
    cases hdest : i.dest? with
    | none => rwa [v.straight hdest]
    | some dest =>
      obtain ⟨t, -, -, hsend⟩ := v.branch dest hdest
      exact hraise.trans (Int.ofNat_le.mpr hsend.onward.greatest_le)
  cases hf : i.fallsThrough with
  | false => rwa [v.stay hf]
  | true => exact hfirst.trans (Int.ofNat_le.mpr (v.next hf).2.onward.greatest_le)

variable (v : Visited code n i d s s₁ s') (hi : code[n]? = some i) (hw : InWord code d)
include v hw

/-- A branch passes on a depth. -/
private theorem Visited.ne_unset {dest : Dest} (hdest : i.dest? = some dest) : wrap code (i.after d) ≠ unset := by
  have := wrap_after_of_dest? hdest (blocked_eq_none.mp v.free).2.2.1 hw
  unfold unset
  omega

/-- Whatever follows has the depth behind the instruction, and is to be visited if that stands for none. -/
private theorem Visited.due {b : Bool} {target : Int} (hi : code[n]? = some i) (hf : Flows code n b target) :
    ∃ t : Nat, target = t ∧ t < code.size ∧ s'.depth[t]? = some (wrap code (i.after d)) ∧
      (t ∈ s'.work ∨ wrap code (i.after d) ≠ unset) := by
  cases hf with
  | next hj hfall =>
    obtain rfl := Option.some.inj (hi.symm.trans hj)
    obtain ⟨hlt, hsend⟩ := v.next hfall
    exact ⟨n + 1, rfl, hlt, hsend.due⟩
  | jump hj hdest =>
    obtain rfl := Option.some.inj (hi.symm.trans hj)
    have hne := v.ne_unset hw hdest
    obtain ⟨t, ht, hlt, hsend⟩ := v.branch _ hdest
    refine ⟨t, ht, hlt, ?_, .inr hne⟩
    cases hfall : i.fallsThrough with
    | false => exact v.stay hfall ▸ hsend.due.1
    | true => exact (v.next hfall).2.onward.kept t _ hsend.due.1 hne

omit v hw in
/-- The visit of an index costs more than what it may put to work behind it. -/
private theorem Orderly.visit_pays (ho : Orderly code { s with work := n :: s.work }) :
    s.debt + (if d = unset then s.depth.size - (n + 1) else 0) < DepthState.debt { s with work := n :: s.work } := by
  have hlt : n < code.size := (ho.reached n (List.mem_cons_self ..)).lt
  have hsize : s.depth.size = code.size := ho.size_eq
  have hstart : DepthState.debt { s with work := n :: s.work } =
      s.debt + DepthState.weight { s with work := n :: s.work } n := by
    simp only [DepthState.debt, List.map_cons, List.sum_cons]
    have : List.map (DepthState.weight { s with work := n :: s.work }) s.work = List.map s.weight s.work := rfl
    rw [this]
    omega
  rw [hstart]
  simp only [DepthState.weight]
  split <;> split <;> omega

include hi

/-- A visit leaves the state of the check in order, and it is paid for. -/
private theorem Visited.orderly (ho : Orderly code { s with work := n :: s.work }) :
    Orderly code s' ∧ s'.debt < DepthState.debt { s with work := n :: s.work } := by
  have hr : Reached code n := ho.reached n (List.mem_cons_self ..)
  have hword := wrap_inWord code (i.after d)
  have hs : Settled (s.raise (wrap code (i.after d))) := fun m hm => ho.settled m hm
  have hrest : Orderly code (s.raise (wrap code (i.after d))) :=
    ⟨ho.size_eq, fun m hm => ho.reached m (List.mem_cons_of_mem n hm), fun m hm => hs m (List.mem_of_mem_tail hm), ho.inWord⟩
  -- Behind the branch there is a depth for everything that is to be visited.
  have hfirst : Orderly code s₁ ∧ Settled s₁ ∧ s₁.debt ≤ s.debt := by
    cases hdest : i.dest? with
    | none =>
      obtain rfl := v.straight hdest
      exact ⟨hrest, hs, Nat.le_refl _⟩
    | some dest =>
      have hne := v.ne_unset hw hdest
      obtain ⟨t, ht, hlt, hsend⟩ := v.branch dest hdest
      have hf : Flows code n true (t : Nat) := ht ▸ .jump hi hdest
      have hdebt := hsend.debt_le hs
      rw [if_neg hne, Nat.add_zero] at hdebt
      exact ⟨hsend.orderly hrest hs (.step hr hf hlt) hword, hsend.settled hs hne, hdebt⟩
  obtain ⟨ho₁, hs₁, hdebt₁⟩ := hfirst
  have hpay := ho.visit_pays (d := wrap code (i.after d))
  cases hfall : i.fallsThrough with
  | false =>
    obtain rfl := v.stay hfall
    exact ⟨ho₁, by omega⟩
  | true =>
    obtain ⟨hlt, hsend⟩ := v.next hfall
    have hsize : s₁.depth.size = s.depth.size := ho₁.size_eq.trans ho.size_eq.symm
    have hdebt := hsend.debt_le hs₁
    rw [hsize] at hdebt
    exact ⟨hsend.orderly ho₁ hs₁ (.step hr (.next hi hfall) hlt) hword, by omega⟩

end

section
variable {code : Array Instr} {s s' : DepthState} {n : Nat} {i : Instr} {d : Int} {work : List Nat}

theorem Orderly.exists_head (ho : Orderly code s) (hwork : s.work = n :: work) :
    ∃ i d, code[n]? = some i ∧ s.depth[n]? = some d := by
  have hlt := (ho.reached n (hwork ▸ List.mem_cons_self ..)).lt
  exact ⟨_, _, Array.getElem?_eq_getElem hlt, Array.getElem?_eq_getElem (ho.size_eq.symm ▸ hlt)⟩

/-- As long as there is something to visit there is something to pay. -/
private theorem Orderly.debt_pos (ho : Orderly code s) (hwork : s.work = n :: work) : 0 < s.debt := by
  have hlt := (ho.reached n (hwork ▸ List.mem_cons_self ..)).lt
  have hsize := ho.size_eq
  simp only [DepthState.debt, hwork, List.map_cons, List.sum_cons, DepthState.weight]
  split <;> omega

/-- A round leaves the state of the check in order, and it is paid for. -/
theorem Orderly.round (ho : Orderly code s) (hwork : s.work = n :: work) (hi : code[n]? = some i)
    (hd : s.depth[n]? = some d) (h : visit code n i d { s with work := work } = .ok s') :
    Orderly code s' ∧ s'.debt < s.debt := by
  have hs : s = { s with work := n :: work } := by rw [← hwork]
  obtain ⟨s₁, v⟩ := (visit_eq_ok (s := { s with work := work }) ho.size_eq).mp h
  have := v.orderly hi (ho.inWord n d hd) (hs ▸ ho)
  rwa [← hs] at this

end

/-- An instruction has been visited at a depth: it may run there, and whatever follows is in the set with the depth behind
it. -/
structure Passed (code : Array Instr) (seen : Nat → Int → Prop) (n : Nat) (d : Int) (i : Instr) : Prop where
  found : code[n]? = some i
  free : blocked i d = none
  follows : ∀ b target, Flows code n b target → ∃ t : Nat, target = t ∧ t < code.size ∧ seen t (wrap code (i.after d))

/-- Visits that start at the entry and bear each other out, with depths where there are any, and their greatest. -/
private structure Accepted (code : Array Instr) (seen : Nat → Int → Prop) (s : DepthState) : Prop where
  entry : seen 0 0
  reached : ∀ n d, seen n d → Reached code n
  inWord : ∀ n d, seen n d → InWord code d
  kept : ∀ n d, seen n d → d ≠ unset → s.depth[n]? = some d
  known : ∀ (n : Nat) d, s.depth[n]? = some d → d ≠ unset → seen n d
  passed : ∀ n d, seen n d → ∃ i, Passed code seen n d i
  le : ∀ n d i, seen n d → code[n]? = some i → wrap code (i.after d) ≤ s.greatest

/-- The same in the middle of the check, where part of the visits are still to come. -/
private structure Found (code : Array Instr) (seen : Nat → Int → Prop) (s : DepthState) : Prop where
  orderly : Orderly code s
  entry : s.depth[0]? = some 0
  reached : ∀ n d, seen n d → Reached code n
  inWord : ∀ n d, seen n d → InWord code d
  kept : ∀ n d, seen n d → d ≠ unset → s.depth[n]? = some d
  known : ∀ (n : Nat) d, s.depth[n]? = some d → d ≠ unset → n ∈ s.work ∨ seen n d
  passed : ∀ n d, seen n d → ∃ i, Passed code (fun m e => seen m e ∨ m ∈ s.work ∧ s.depth[m]? = some e) n d i
  le : ∀ n d i, seen n d → code[n]? = some i → wrap code (i.after d) ≤ s.greatest

section
variable {code : Array Instr} {seen : Nat → Int → Prop} {s s₁ s' : DepthState} {n : Nat} {i : Instr} {d e : Int}
  {work : List Nat}

private theorem Passed.mono {seen' : Nat → Int → Prop} (h : Passed code seen n d i)
    (hs : ∀ t e, seen t e → seen' t e) : Passed code seen' n d i where
  found := h.found
  free := h.free
  follows b target hf := by
    obtain ⟨t, ht, hlt, hseen⟩ := h.follows b target hf
    exact ⟨t, ht, hlt, hs t _ hseen⟩

private theorem Found.round (f : Found code seen s) (hwork : s.work = n :: work) (hi : code[n]? = some i)
    (hd : s.depth[n]? = some d) (h : visit code n i d { s with work := work } = .ok s') :
    Found code (fun m e => seen m e ∨ m = n ∧ e = d) s' ∧ s'.debt < s.debt := by
  have ho := f.orderly
  have hw : InWord code d := ho.inWord n d hd
  have hr : Reached code n := ho.reached n (hwork ▸ List.mem_cons_self ..)
  obtain ⟨s₁, v⟩ := (visit_eq_ok (s := { s with work := work }) ho.size_eq).mp h
  have hon := v.onward
  obtain ⟨ho', hdebt⟩ := ho.round hwork hi hd h
  have hknown (m : Nat) (e : Int) (hm : s'.depth[m]? = some e) (he : e ≠ unset) :
      m ∈ s'.work ∨ seen m e ∨ m = n ∧ e = d := by
    rcases hon.new m e hm with hold | hnew
    · rcases f.known m e hold he with hmw | hseen
      · rcases List.mem_cons.mp (hwork ▸ hmw) with rfl | hmw
        · exact .inr (.inr ⟨rfl, Option.some.inj (hold.symm.trans hd)⟩)
        · exact .inl (hon.work m hmw)
      · exact .inr (.inl hseen)
    · exact .inl hnew
  refine ⟨⟨ho', hon.kept 0 0 f.entry (by decide), ?_, ?_, ?_, hknown, ?_, ?_⟩, hdebt⟩
  · rintro m e (hm | ⟨rfl, -⟩)
    · exact f.reached m e hm
    · exact hr
  · rintro m e (hm | ⟨-, rfl⟩)
    · exact f.inWord m e hm
    · exact hw
  · rintro m e (hm | ⟨rfl, rfl⟩) he
    · exact hon.kept m e (f.kept m e hm he) he
    · exact hon.kept m e hd he
  · rintro m e (hm | ⟨rfl, rfl⟩)
    · obtain ⟨j, hj⟩ := f.passed m e hm
      refine ⟨j, hj.mono fun t a ht => ?_⟩
      rcases ht with hseen | ⟨htw, hta⟩
      · exact .inl (.inl hseen)
      rcases List.mem_cons.mp (hwork ▸ htw) with rfl | hmem
      · exact .inl (.inr ⟨rfl, Option.some.inj (hta.symm.trans hd)⟩)
      · have hne : a ≠ unset := fun h => ho.settled t (by rwa [hwork, List.tail_cons]) (h ▸ hta)
        exact .inr ⟨hon.work t hmem, hon.kept t a hta hne⟩
    · refine ⟨i, hi, v.free, fun b target hf => ?_⟩
      obtain ⟨t, ht, hlt, hta, hdue⟩ := v.due hw hi hf
      refine ⟨t, ht, hlt, ?_⟩
      rcases hdue with htw | hne
      · exact .inr ⟨htw, hta⟩
      · rcases hknown t _ hta hne with htw | hseen
        · exact .inr ⟨htw, hta⟩
        · exact .inl hseen
  · rintro m e j (hm | ⟨rfl, rfl⟩) hj
    · exact (f.le m e j hm hj).trans (Int.ofNat_le.mpr hon.greatest_le)
    · obtain rfl := Option.some.inj (hi.symm.trans hj)
      exact v.le_greatest

/-- With as many rounds as it costs, the check comes to its end. -/
private theorem Found.run {rounds : Nat} (f : Found code seen s) (hr : s.debt ≤ rounds)
    (h : visitAll code rounds s = .ok s') : ∃ seen', Found code seen' s' ∧ s'.work = [] := by
  induction rounds generalizing s seen with
  | zero =>
    cases hwork : s.work with
    | nil =>
      cases h
      exact ⟨seen, f, hwork⟩
    | cons n work => exact absurd (f.orderly.debt_pos hwork) (by omega)
  | succ rounds ih =>
    cases hwork : s.work with
    | nil =>
      simp only [visitAll, hwork] at h
      cases h
      exact ⟨seen, f, hwork⟩
    | cons n work =>
      obtain ⟨i, d, hi, hd⟩ := f.orderly.exists_head hwork
      simp only [visitAll, hwork, hi, hd, bind, Except.bind] at h
      cases hv : visit code n i d { s with work := work } with
      | error e => simp [hv] at h
      | ok s₁ =>
        simp only [hv] at h
        obtain ⟨f₁, hdebt⟩ := f.round hwork hi hd hv
        exact ih f₁ (by omega) h

end

section
variable {code : Array Instr} (hpos : 0 < code.size)
include hpos

theorem initial_orderly : Orderly code (.initial code) where
  size_eq := initial_size code
  reached n hn := by
    obtain rfl := List.mem_singleton.mp hn
    exact .entry hpos
  settled n hn := by simp [DepthState.initial] at hn
  inWord n d hn := by
    have hlt : n < code.size := initial_size code ▸ (Array.getElem?_eq_some_iff.mp hn).1
    rw [initial_depth hlt, Option.some.injEq] at hn
    refine inWord_of_le ?_ ?_ <;> subst hn <;> split <;> simp [unset]

private theorem initial_debt : (DepthState.initial code).debt = roundBound code := by
  have hcount : (DepthState.initial code).depth.countP (· = unset) = code.size - 1 := by
    simp [DepthState.initial, Array.setIfInBounds, hpos, Array.countP_set, Array.countP_replicate, unset]
  have hweight : (DepthState.initial code).weight 0 = code.size + 1 := by
    simp [DepthState.weight, initial_depth hpos, initial_size, unset]
  have hwork : (DepthState.initial code).work = [0] := rfl
  obtain ⟨k, hk⟩ := Nat.exists_eq_add_of_lt hpos
  simp only [DepthState.debt, hcount, hwork, List.map_cons, List.map_nil, List.sum_cons, List.sum_nil, hweight, initial_size,
    roundBound, hk, Nat.zero_add, Nat.add_sub_cancel, Nat.add_zero, Nat.add_mul, Nat.one_mul]

end

/-- The depths that the check has found bear out that it accepts. -/
private theorem depths_eq_ok {code : Array Instr} {s : DepthState} (h : depths code = .ok s) :
    ∃ seen, Accepted code seen s := by
  have hpos : 0 < code.size := by
    rw [Nat.pos_iff_ne_zero]
    intro h0
    simp [depths, Array.isEmpty, h0] at h
  have f : Found code (fun _ _ => False) (.initial code) := by
    refine ⟨initial_orderly hpos, by rw [initial_depth hpos, if_pos rfl], nofun, nofun, nofun,
      fun n d hn hd => .inl ?_, nofun, nofun⟩
    have hlt : n < code.size := initial_size code ▸ (Array.getElem?_eq_some_iff.mp hn).1
    by_cases h0 : n = 0
    · simp [DepthState.initial, h0]
    · rw [initial_depth hlt, if_neg h0, Option.some.injEq] at hn
      exact absurd hn.symm hd
  rw [depths_eq hpos] at h
  obtain ⟨seen, f, hwork⟩ := f.run (Nat.le_of_eq (initial_debt hpos)) h
  have hknown (n : Nat) (d : Int) (hn : s.depth[n]? = some d) (hd : d ≠ unset) : seen n d :=
    (f.known n d hn hd).resolve_left (by simp [hwork])
  refine ⟨seen, hknown 0 0 f.entry (by decide), f.reached, f.inWord, f.kept, hknown, fun n d hn => ?_, f.le⟩
  obtain ⟨i, hi⟩ := f.passed n d hn
  exact ⟨i, hi.mono fun t e ht => ht.resolve_right (by simp [hwork])⟩

/-! Each index is visited at one depth. -/

section
variable {code : Array Instr} {seen : Nat → Int → Prop} {s : DepthState} {n : Nat} {i : Instr} {d e : Int}

/-- Were an index visited at a depth besides none, so would be the one behind it, and so on past the end of the code. -/
private theorem Accepted.unset_unique (a : Accepted code seen s) (hn : seen n unset) (he : seen n e) : e = unset := by
  by_contra hne
  induction hrest : code.size - n generalizing n e with
  | zero =>
    have := (a.reached n _ hn).lt
    omega
  | succ rest ih =>
    obtain ⟨i, hi⟩ := a.passed n _ hn
    obtain ⟨j, hj⟩ := a.passed n _ he
    obtain rfl := Option.some.inj (hi.found.symm.trans hj.found)
    obtain ⟨t, c, rfl⟩ := Instr.takes_neg (Int.lt_of_le_of_lt (blocked_eq_none.mp hi.free).2.2.1 (by decide : unset < 0))
    obtain ⟨m, hm, -, hnone⟩ := hi.follows _ _ (.next hi.found rfl)
    obtain ⟨m', hm', -, hsome⟩ := hj.follows _ _ (.next hi.found rfl)
    obtain rfl := Int.ofNat_inj.mp hm
    obtain rfl := Int.ofNat_inj.mp hm'
    have hdiff := wrap_after_ne (i := .newList t c) hne (a.inWord n e he)
    by_cases h₁ : wrap code ((Instr.newList t c).after unset) = unset
    · exact ih (h₁ ▸ hnone) hsome (h₁ ▸ hdiff.symm) (by omega)
    by_cases h₂ : wrap code ((Instr.newList t c).after e) = unset
    · exact ih (h₂ ▸ hsome) hnone h₁ (by omega)
    · exact hdiff (Option.some.inj ((a.kept _ _ hnone h₁).symm.trans (a.kept _ _ hsome h₂)))

private theorem Accepted.unique (a : Accepted code seen s) (hd : seen n d) (he : seen n e) : d = e := by
  by_cases h₁ : d = unset
  · subst h₁
    exact (a.unset_unique hd he).symm
  by_cases h₂ : e = unset
  · subst h₂
    exact a.unset_unique he hd
  · exact Option.some.inj ((a.kept n d hd h₁).symm.trans (a.kept n e he h₂))

/-- Every index that control gets to is visited. -/
private theorem Accepted.exists_depth (a : Accepted code seen s) (hr : Reached code n) : ∃ d, seen n d := by
  induction hr with
  | entry => exact ⟨0, a.entry⟩
  | step _ hf _ ih =>
    obtain ⟨d, hd⟩ := ih
    obtain ⟨i, hi⟩ := a.passed _ d hd
    obtain ⟨t, ht, -, hseen⟩ := hi.follows _ _ hf
    obtain rfl := Int.ofNat_inj.mp ht
    exact ⟨_, hseen⟩

private theorem Accepted.passed_of_seen (a : Accepted code seen s) (hd : seen n d) (hi : code[n]? = some i) :
    Passed code seen n d i := by
  obtain ⟨j, hj⟩ := a.passed n d hd
  obtain rfl := Option.some.inj (hi.symm.trans hj.found)
  exact hj

/-- Depths that the check has found fit. -/
private theorem Accepted.levelled (a : Accepted code seen s) :
    ∃ depth, Levelled (wrap code) code depth ∧ ∀ n, Reached code n → seen n (depth n) := by
  have hdepth (n : Nat) : ∃ d, Reached code n → seen n d := by
    by_cases hr : Reached code n
    · exact (a.exists_depth hr).imp fun _ hd _ => hd
    · exact ⟨0, fun h => absurd h hr⟩
  choose depth hseen using hdepth
  have hfree {n : Nat} {i : Instr} (hr : Reached code n) (hi : code[n]? = some i) :=
    blocked_eq_none.mp (a.passed_of_seen (hseen n hr) hi).free
  have hentry : Reached code 0 := a.reached 0 0 a.entry
  refine ⟨depth, ⟨a.unique (hseen 0 hentry) a.entry, fun hr hi => (hfree hr hi).1, fun hr hi => (hfree hr hi).2.1 _,
    fun hr hi => (hfree hr hi).2.2.1, fun hr hi => (hfree hr hi).2.2.2, fun hr hi hf => ?_⟩, fun n => hseen n⟩
  obtain ⟨t, ht, hlt, hseen'⟩ := (a.passed_of_seen (hseen _ hr) hi).follows _ _ hf
  exact ⟨t, ht, hlt, a.unique (hseen t (a.reached t _ hseen')) hseen'⟩

/-- What the check gives for a code that it accepts: depths that fit, and what is greatest behind them. -/
structure Finds (code : Array Instr) (s : DepthState) (depth : Nat → Int) : Prop where
  pos : 0 < code.size
  levelled : Levelled (wrap code) code depth
  found : ∀ n d, d ≠ unset → (s.depth[n]? = some d ↔ Reached code n ∧ depth n = d)
  le : ∀ k ∈ depthsBehind (wrap code) code depth, k ≤ s.greatest

theorem depths_finds (h : depths code = .ok s) : ∃ depth, Finds code s depth := by
  obtain ⟨seen, a⟩ := depths_eq_ok h
  obtain ⟨depth, hl, hseen⟩ := a.levelled
  refine ⟨depth, (a.reached 0 0 a.entry).lt, hl, fun n d hd => ⟨fun hn => ?_, ?_⟩, ?_⟩
  · have hs := a.known n d hn hd
    have hr := a.reached n d hs
    exact ⟨hr, a.unique (hseen n hr) hs⟩
  · rintro ⟨hr, rfl⟩
    exact a.kept n _ (hseen n hr) hd
  · rintro k (rfl | ⟨n, i, hr, hi, rfl⟩)
    · exact Int.natCast_nonneg _
    · exact a.le n _ i (hseen n hr) hi

end

/-! The rounds come to an end by themselves: their number is no bound. -/

/-- The rounds of the check, as many as there are: the index that was found last is visited next. -/
inductive Loops (code : Array Instr) : DepthState → Except DepthError DepthState → Prop
  | done {s} (hw : s.work = []) : Loops code s (.ok s)
  | fail {s} {n : Nat} {work i d e} (hw : s.work = n :: work) (hi : code[n]? = some i) (hd : s.depth[n]? = some d)
    (hv : visit code n i d { s with work := work } = .error e) : Loops code s (.error e)
  | round {s s₁} {n : Nat} {work i d r} (hw : s.work = n :: work) (hi : code[n]? = some i) (hd : s.depth[n]? = some d)
    (hv : visit code n i d { s with work := work } = .ok s₁) (hr : Loops code s₁ r) : Loops code s r

section
variable {code : Array Instr} {s : DepthState} {r r' : Except DepthError DepthState}

/-- A state of the check determines its next visit. -/
private theorem visit_unique {n n' : Nat} {d d' : Int} {i i' : Instr} {work work' : List Nat} (hw : s.work = n :: work)
    (hi : code[n]? = some i) (hd : s.depth[n]? = some d) (hw' : s.work = n' :: work') (hi' : code[n']? = some i')
    (hd' : s.depth[n']? = some d') :
    visit code n i d { s with work := work } = visit code n' i' d' { s with work := work' } := by
  cases hw.symm.trans hw'
  cases hi.symm.trans hi'
  cases hd.symm.trans hd'
  rfl

theorem Loops.unique (h : Loops code s r) (h' : Loops code s r') : r = r' := by
  induction h with
  | done hw =>
    cases h' with
    | done => rfl
    | fail hw' | round hw' => cases hw.symm.trans hw'
  | fail hw hi hd hv =>
    cases h' with
    | done hw' => cases hw.symm.trans hw'
    | fail hw' hi' hd' hv' =>
      cases hv.symm.trans ((visit_unique hw hi hd hw' hi' hd').trans hv')
      rfl
    | round hw' hi' hd' hv' => cases hv.symm.trans ((visit_unique hw hi hd hw' hi' hd').trans hv')
  | round hw hi hd hv _ ih =>
    cases h' with
    | done hw' => cases hw.symm.trans hw'
    | fail hw' hi' hd' hv' => cases hv.symm.trans ((visit_unique hw hi hd hw' hi' hd').trans hv')
    | round hw' hi' hd' hv' hr =>
      cases hv.symm.trans ((visit_unique hw hi hd hw' hi' hd').trans hv')
      exact ih hr

/-- With as many rounds as it costs, the bound on the rounds is not met. -/
private theorem Orderly.loops {rounds : Nat} (ho : Orderly code s) (hr : s.debt ≤ rounds) :
    Loops code s (visitAll code rounds s) := by
  induction rounds generalizing s with
  | zero =>
    cases hwork : s.work with
    | nil => exact .done hwork
    | cons n work => exact absurd (ho.debt_pos hwork) (by omega)
  | succ rounds ih =>
    cases hwork : s.work with
    | nil =>
      simp only [visitAll, hwork]
      exact .done hwork
    | cons n work =>
      obtain ⟨i, d, hi, hd⟩ := ho.exists_head hwork
      simp only [visitAll, hwork, hi, hd, bind, Except.bind]
      cases hv : visit code n i d { s with work := work } with
      | error e => exact .fail hwork hi hd hv
      | ok s₁ =>
        obtain ⟨ho₁, hdebt⟩ := ho.round hwork hi hd hv
        exact .round hwork hi hd hv (ih ho₁ (by omega))

/-- The check is what its rounds come to. -/
theorem loops_iff (hpos : 0 < code.size) : Loops code (.initial code) r ↔ r = depths code := by
  have h := (initial_orderly hpos).loops (Nat.le_of_eq (initial_debt hpos))
  rw [← depths_eq hpos] at h
  exact ⟨fun hr => hr.unique h, fun hr => hr ▸ h⟩

end

end WhileStack.Machine
