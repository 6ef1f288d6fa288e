import WhileStack.Proofs.Machine.Chunk

/-! Code that control cannot run out of: labels can be resolved in it and its depth can be checked. -/
namespace WhileStack.Machine

/-- Behind an instruction that control does not pass only marks follow, and nothing branches to those. -/
def Closes (code : Code) : Prop :=
  ∃ c i c', code = c ++ i :: c' ∧ i.isMark = false ∧ i.fallsThrough = false ∧ (∀ j ∈ c', j.isMark = true) ∧
    ∀ l ∈ branchLabels code, l ∉ marks c'

section
variable {index : Label → Nat} {full : Array Instr} {code c c' : Code} {l : Label} {n n' n₁ k d d' : Nat}

theorem realCount_marks (h : ∀ j ∈ c, j.isMark = true) : realCount c = 0 := by
  rw [realCount_eq_length, List.length_eq_zero_iff, List.filter_eq_nil_iff]
  simpa using h

/-- A chunk in front of code that closes makes no difference to its end. -/
theorem Closes.prepend (h : LabelsIn n n₁ c) (h' : LabelsIn n₁ n' c') (hc : Closes c') : Closes (c ++ c') := by
  obtain ⟨a, i, b, rfl, hm, hf, hb, hl⟩ := hc
  refine ⟨c ++ a, i, b, by simp, hm, hf, hb, fun l hlm hlb => ?_⟩
  rcases List.mem_append.mp (branchLabels_append ▸ hlm) with hlc | hlc
  · have h₁ := h.range l (h.closed l hlc)
    have h₂ := h'.range l (by simp [marks_cons hm, hlb])
    omega
  · exact hl l hlc hlb

theorem Placed.index_eq (h : Placed index full n code) (hs : StandsAt code l k) : index l = n + k := by
  obtain ⟨a, b, rfl, rfl⟩ := hs
  exact (placed_mark.mp (placed_append.mp h).2).1

theorem StandsAt.append (h : StandsAt c l k) : StandsAt (c ++ c') l k := by
  obtain ⟨a, b, rfl, rfl⟩ := h
  exact ⟨a, b ++ c', by simp, rfl⟩

theorem StandsAt.le (h : StandsAt c l k) : k ≤ realCount c := by
  obtain ⟨a, b, rfl, rfl⟩ := h
  simp

/-- Labels that branches go to have an instruction behind them. -/
private theorem branch_standsAt (hl : LabelsIn n n' code) (hc : Closes code) (hb : l ∈ branchLabels code) :
    ∃ k, StandsAt code l k ∧ k < realCount code := by
  obtain ⟨a, i, b, rfl, hm, -, -, hlb⟩ := hc
  have hmem : l ∈ marks a := by
    have := hl.closed l hb
    simp only [marks_append, marks_cons hm, List.mem_append] at this
    exact this.resolve_right (hlb l hb)
  obtain ⟨k, hk⟩ := mem_marks.mp hmem
  refine ⟨k, hk.append, ?_⟩
  have := hk.le
  simp only [realCount_append, realCount_cons hm]
  omega

/-! What retargeting a branch leaves as it is. -/

section
variable (index) (i : Instr)

theorem retarget_none (h : i.dest? = none) : retarget index i = i := by simp [retarget, h]

theorem retarget_depthAfter : (retarget index i).depthAfter d = i.depthAfter d := by cases i <;> rfl

theorem retarget_pops : (retarget index i).pops = i.pops := by cases i <;> rfl

theorem retarget_takes : (retarget index i).takes = i.takes := by cases i <;> rfl

theorem retarget_fallsThrough : (retarget index i).fallsThrough = i.fallsThrough := by cases i <;> rfl

theorem retarget_dest? : (retarget index i).dest? = i.dest?.map fun d => .toIndex (index d.label) := by
  cases i <;> rfl

end

private theorem blocked_retarget {level : Label → Nat} {i : Instr} {e : Nat} (h : Suits level i d e) :
    blocked (retarget index i) d = none := by
  have hmark : (retarget index i).isMark = i.isMark := by cases i <;> rfl
  have hret : (retarget index i).isReturn = i.isReturn := by cases i <;> rfl
  refine blocked_eq_none.mpr ⟨hmark.trans h.real, fun dest hdest => ?_, ?_, fun hr => ?_⟩
  · rw [retarget_dest?] at hdest
    obtain ⟨dest', -, rfl⟩ := Option.map_eq_some_iff.mp hdest
    rfl
  · rw [retarget_takes, h.takes_eq]
    exact Int.ofNat_le.mpr h.enough
  · rw [retarget_takes, h.takes_eq, ← h.leaves (hret ▸ hr)]

/-- Code of a chunk that control cannot run out of is resolved and accepted. -/
theorem Closes.accepted (hc : Closes code) (hl : LabelsIn n n' code) (hs : Sinks n n' 0 code d') :
    ∃ full, resolve code = .ok full ∧ ∃ m, maxDepth full.toArray = .ok m := by
  obtain ⟨full, hr⟩ := resolve_ok hl.nodup fun l hb => branch_standsAt hl hc hb
  obtain ⟨index, hlen, hp⟩ := resolve_placed hr
  obtain ⟨level, ds, hd⟩ := hs.exists_deep
  have hsize : full.toArray.size = realCount code := by simp [hlen]
  refine ⟨full, hr, maxDepth_ok (fun k => (ds ++ [d']).getD k 0) ?_ ?_ fun k j hj => ?_⟩
  · obtain ⟨a, i, b, rfl, hm, -⟩ := hc
    rw [hsize, realCount_append, realCount_cons hm]
    omega
  · rw [List.getD_eq_getElem?_getD, hd.head, Option.getD_some]
  · have hk : k < realCount code := by
      rw [← hsize]
      exact (Array.getElem?_eq_some_iff.mp hj).1
    obtain ⟨i, d, e, rfl, hdk, hek, hsuit, hmem⟩ := hd.found hp hk (by rwa [Nat.zero_add])
    have h₁ : (ds ++ [d']).getD k 0 = d := by simp [hdk]
    have h₂ : (ds ++ [d']).getD (k + 1) 0 = e := by simp [hek]
    refine ⟨by rw [retarget_takes, retarget_pops]; exact hsuit.takes_eq, by simp only [h₁]; exact blocked_retarget hsuit,
      fun dest hdest => ?_, fun hf => ?_⟩
    · obtain ⟨dest₀, hd₀, rfl⟩ := Option.map_eq_some_iff.mp (retarget_dest? index i ▸ hdest)
      have hb : dest₀.label ∈ branchLabels code := List.mem_filterMap.mpr ⟨i, hmem, by simp [hd₀]⟩
      obtain ⟨m, hm, hlt⟩ := branch_standsAt hl hc hb
      have hidx : index dest₀.label = m := by simpa using hp.index_eq hm
      refine ⟨m, by simp [Dest.toIndex, hidx], by omega, ?_⟩
      simp only [h₁, retarget_depthAfter, ← hsuit.branch dest₀ hd₀, List.getD_eq_getElem?_getD, hd.level_eq hm,
        Option.getD_some]
    · rw [retarget_fallsThrough] at hf
      refine ⟨?_, by simp only [h₁, h₂, retarget_depthAfter]; exact hsuit.next hf⟩
      obtain ⟨a, i₀, b, rfl, hm, hf₀, hb, -⟩ := hc
      have hi₀ := ((placed_cons hm).mp (placed_append.mp hp).2).1
      rw [hsize]
      simp only [realCount_append, realCount_cons hm, realCount_marks hb] at hk ⊢
      have : k ≠ realCount a := fun he => by
        rw [Nat.zero_add, ← he, hj] at hi₀
        have := congrArg Instr.fallsThrough (Option.some.inj hi₀)
        rw [retarget_fallsThrough, retarget_fallsThrough, hf, hf₀] at this
        cases this
      omega

end

end WhileStack.Machine
