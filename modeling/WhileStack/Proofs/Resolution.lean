import WhileStack.Proofs.Exec
import WhileStack.Proofs.Machine.Control

/-! Resolving labels is exact: it succeeds just where every branch has one place to go to, it leaves the ways of control
as they are, and where it fails it says why. -/
namespace WhileStack.Machine

/-- Every label is placed once at most, and those that branches go to have an instruction behind them. -/
structure Resolvable (code : Code) : Prop extends OwnLabels code where
  inside : ∀ l ∈ branchLabels code, ¬ StandsAt code l (realCount code)

/-- Why labels cannot be resolved: the first mark that repeats another, else the least label without a mark, else the
first branch to a mark that no instruction follows. -/
inductive Reports (code : Code) : LabelError → Prop
  | repeated {p l} (hp : code[p]? = some (.mark l)) (again : l ∈ marks (code.take p))
    (first : (marks (code.take p)).Nodup) : Reports code ⟨l, .repeated⟩
  | missing {l} (once : (marks code).Nodup) (used : l ∈ branchLabels code) (unplaced : l ∉ marks code)
    (least : ∀ k ∈ branchLabels code, k ∉ marks code → l ≤ k) : Reports code ⟨l, .missing⟩
  | pastEnd {p i dest} (once : (marks code).Nodup) (placed : ∀ l ∈ branchLabels code, l ∈ marks code)
    (hp : code[p]? = some i) (hd : i.dest? = some dest) (past : StandsAt code dest.label (realCount code))
    (first : ∀ l ∈ branchLabels (code.take p), ¬ StandsAt code l (realCount code)) : Reports code ⟨dest.label, .pastEnd⟩

/-- An instruction and what becomes of it: a branch goes to the index of its label, all else stays. -/
inductive Relocated (code : Code) : Instr → Instr → Prop
  | plain {i} (h : i.dest? = none) : Relocated code i i
  | branch {i dest n} (h : i.dest? = some dest) (hn : StandsAt code dest.label n) :
    Relocated code i (i.setDest (.toIndex n))

/-- Resolved code has the control of the code with labels. Where that stops, the count of the instructions in front is
the index. -/
structure SameControl (code : Code) (full : Array Instr) : Prop where
  start : ∃ p, Lands code 0 p ∧ realsBefore code p = 0
  stops : ∀ n ≤ full.size, ∃! p, Stops code p ∧ realsBefore code p = n
  found : ∀ p i, code[p]? = some i → i.isMark = false → ∃ j, full[realsBefore code p]? = some j ∧ Relocated code i j
  step : ∀ p, Stops code p → ∀ b (t : Int),
    Flows full (realsBefore code p) b t ↔ ∃ q, Moves code p b q ∧ t = realsBefore code q
  run : ∀ p, Stops code p → ∀ bs t, Travels (fun n b t => Flows full n b (t : Nat)) (realsBefore code p) bs t ↔
    ∃ q, Travels (Moves code) p bs q ∧ t = realsBefore code q

section
variable {code : Code} {e : LabelError} {found found' : List (Label × Nat)} {n size : Nat} {l : Label}

private theorem lookup_cons_eq_none {k : Label} :
    ((k, n) :: found).lookup l = none ↔ l ≠ k ∧ found.lookup l = none := by
  by_cases h : l = k
  · simp [h]
  · simp [List.lookup_cons, beq_false_of_ne h, h]

private theorem places_cons {i : Instr} (hi : i.isMark = false) :
    places n found (i :: code) = places (n + 1) found code := by
  cases i <;> first | rfl | simp [Instr.isMark] at hi

/-- Counting stops at the first mark of a label that has been found. -/
private theorem places_eq_error (h : places n found code = .error e) :
    ∃ p l, code[p]? = some (.mark l) ∧ e = ⟨l, .repeated⟩ ∧ (l ∈ marks (code.take p) ∨ found.lookup l ≠ none) ∧
      (marks (code.take p)).Nodup ∧ ∀ k ∈ marks (code.take p), found.lookup k = none := by
  induction code generalizing n found with
  | nil => cases h
  | cons i code ih =>
    cases hi : i.isMark with
    | true =>
      cases i with
      | mark k =>
        simp only [places] at h
        split at h
        · rename_i hk
          cases h
          exact ⟨0, k, rfl, rfl, .inr (Option.isSome_iff_ne_none.mp hk), List.nodup_nil, by simp⟩
        · rename_i hk
          obtain ⟨p, l, hp, he, hl, hn, hf⟩ := ih h
          simp only [ne_eq, lookup_cons_eq_none] at hl hf
          refine ⟨p + 1, l, hp, he, ?_, ?_, ?_⟩ <;> simp only [List.take_succ_cons, marks_mark]
          · rw [List.mem_cons]
            tauto
          · exact List.nodup_cons.mpr ⟨fun hm => (hf k hm).1 rfl, hn⟩
          · rintro m (_ | ⟨_, hm⟩)
            · exact Option.not_isSome_iff_eq_none.mp hk
            · exact (hf m hm).2
      | _ => simp [Instr.isMark] at hi
    | false =>
      rw [places_cons hi] at h
      obtain ⟨p, l, hp, he, h⟩ := ih h
      exact ⟨p + 1, l, hp, he, by simpa only [List.take_succ_cons, marks_cons hi] using h⟩

/-- Counting that comes to the end has found no label twice. -/
private theorem places_nodup (h : places n found code = .ok (found', size)) :
    (marks code).Nodup ∧ ∀ l ∈ marks code, found.lookup l = none := by
  induction code generalizing n found with
  | nil => exact ⟨List.nodup_nil, by simp⟩
  | cons i code ih =>
    cases hi : i.isMark with
    | true =>
      cases i with
      | mark k =>
        simp only [places] at h
        split at h
        · cases h
        · rename_i hk
          obtain ⟨hn, hf⟩ := ih h
          simp only [lookup_cons_eq_none] at hf
          refine ⟨List.nodup_cons.mpr ⟨fun hm => (hf k hm).1 rfl, hn⟩, ?_⟩
          rintro m (_ | ⟨_, hm⟩)
          · exact Option.not_isSome_iff_eq_none.mp hk
          · exact (hf m hm).2
      | _ => simp [Instr.isMark] at hi
    | false =>
      rw [marks_cons hi]
      exact ih (places_cons hi ▸ h)

/-- The first instruction that a list cannot be mapped at. -/
private theorem mapM_filter_eq_error {f : Instr → Except LabelError Instr}
    (h : (code.filter fun i => !i.isMark).mapM f = .error e) :
    ∃ p i, code[p]? = some i ∧ i.isMark = false ∧ f i = .error e ∧
      ∀ j ∈ code.take p, j.isMark = false → ∃ k, f j = .ok k := by
  induction code with
  | nil => cases h
  | cons i code ih =>
    cases hi : i.isMark with
    | true =>
      rw [List.filter_cons_of_neg (by simp [hi])] at h
      obtain ⟨p, j, hp, hj, hf, hb⟩ := ih h
      refine ⟨p + 1, j, hp, hj, hf, ?_⟩
      rintro k (_ | ⟨_, hk⟩) hm
      · simp [hi] at hm
      · exact hb k hk hm
    | false =>
      rw [List.filter_cons_of_pos (by simp [hi]), List.mapM_cons] at h
      rcases Partial.then_eq_error.mp h with h | ⟨k, hk, h⟩
      · exact ⟨0, i, rfl, hi, h, by simp⟩
      · obtain ⟨p, j, hp, hj, hf, hb⟩ := ih ((Partial.then_eq_error.mp h).resolve_right (by simp [pure, Except.pure]))
        refine ⟨p + 1, j, hp, hj, hf, ?_⟩
        rintro m (_ | ⟨_, hm⟩) hreal
        · exact ⟨k, hk⟩
        · exact hb m hm hreal

end

section
variable {code full : Code} {e : LabelError} {found : List (Label × Nat)} {size : Nat}

private theorem mem_branchLabels {l : Label} : l ∈ branchLabels code ↔ ∃ i ∈ code, ∃ d, i.dest? = some d ∧ d.label = l := by
  simp [branchLabels]

/-- What resolving comes to. -/
private theorem resolve_cases (code : Code) :
    (∃ e, places 0 [] code = .error e ∧ resolve code = .error e) ∨
    ∃ found size, places 0 [] code = .ok (found, size) ∧
      ((∃ l, ((branchLabels code).filter fun l => (found.lookup l).isNone).min? = some l ∧
          resolve code = .error ⟨l, .missing⟩) ∨
        (∀ l ∈ branchLabels code, found.lookup l ≠ none) ∧
          resolve code = (code.filter fun i => !i.isMark).mapM (relocate found size)) := by
  unfold resolve
  cases hp : places 0 [] code with
  | error e => exact .inl ⟨e, rfl, rfl⟩
  | ok r =>
    obtain ⟨found, size⟩ := r
    refine .inr ⟨found, size, rfl, ?_⟩
    simp only [bind, Except.bind]
    cases hm : ((branchLabels code).filter fun l => (found.lookup l).isNone).min? with
    | some l => exact .inl ⟨l, rfl, rfl⟩
    | none =>
      refine .inr ⟨fun l hl hn => ?_, rfl⟩
      have := List.filter_eq_nil_iff.mp (List.min?_eq_none_iff.mp hm) l hl
      simp [hn] at this

variable (hf : ∀ l m, found.lookup l = some m ↔ StandsAt code l m)
include hf

private theorem relocated_of_relocate {i j : Instr} (h : relocate found size i = .ok j) :
    Relocated code i j ∧ ∀ d, i.dest? = some d → ∃ m < size, StandsAt code d.label m := by
  unfold relocate at h
  split at h
  · rename_i hd
    cases h
    exact ⟨.plain hd, by simp [hd]⟩
  · rename_i d hd
    split at h
    · cases h
    · rename_i m hm
      split at h
      · rename_i hlt
        cases h
        have hs := (hf _ _).mp hm
        exact ⟨.branch hd hs, fun d' hd' => ⟨m, hlt, Option.some.inj (hd.symm.trans hd') ▸ hs⟩⟩
      · cases h

private theorem relocate_eq_error {i : Instr} (h : relocate found size i = .error e)
    (hi : ∀ d, i.dest? = some d → found.lookup d.label ≠ none) :
    ∃ d m, i.dest? = some d ∧ StandsAt code d.label m ∧ size ≤ m ∧ e = ⟨d.label, .pastEnd⟩ := by
  unfold relocate at h
  split at h
  · cases h
  · rename_i d hd
    split at h
    · rename_i hn
      exact absurd hn (hi d hd)
    · rename_i m hm
      split at h
      · cases h
      · rename_i hle
        cases h
        exact ⟨d, m, hd, (hf _ _).mp hm, Nat.not_lt.mp hle, rfl⟩

/-- A label that stands in front of the end stands nowhere else. -/
private theorem not_standsAt_end {l : Label} (h : ∃ m < realCount code, StandsAt code l m) :
    ¬ StandsAt code l (realCount code) := by
  rintro he
  obtain ⟨m, hlt, hm⟩ := h
  have := Option.some.inj (((hf _ _).mpr hm).symm.trans ((hf _ _).mpr he))
  omega

private theorem mem_marks_iff {l : Label} : l ∈ marks code ↔ found.lookup l ≠ none := by
  simp only [mem_marks, Option.ne_none_iff_exists', hf]

end

section
variable {code full : Code} {e : LabelError}

private theorem places_standsAt {found : List (Label × Nat)} {size : Nat} (h : places 0 [] code = .ok (found, size)) :
    size = realCount code ∧ ∀ l m, found.lookup l = some m ↔ StandsAt code l m := by
  obtain ⟨hs, hf⟩ := places_found h
  exact ⟨by omega, fun l m => by simp [hf]⟩

theorem resolve_eq_ok (h : resolve code = .ok full) :
    Resolvable code ∧ List.Forall₂ (Relocated code) (code.filter fun i => !i.isMark) full := by
  rcases resolve_cases code with ⟨e, -, he⟩ | ⟨found, size, hp, ⟨l, -, he⟩ | ⟨hall, he⟩⟩
  · cases he.symm.trans h
  · cases he.symm.trans h
  obtain ⟨rfl, hf⟩ := places_standsAt hp
  have hmap := mapM_eq_ok.mp (he.symm.trans h)
  refine ⟨⟨⟨(places_nodup hp).1, fun l hl => (mem_marks_iff hf).mpr (hall l hl)⟩, fun l hl => ?_⟩,
    hmap.imp fun _ _ hr => (relocated_of_relocate hf hr).1⟩
  obtain ⟨i, hi, d, hd, rfl⟩ := mem_branchLabels.mp hl
  obtain ⟨j, -, hj⟩ := exists_of_forall₂ hmap (List.mem_filter.mpr ⟨hi, by simp [isMark_of_dest? hd]⟩)
  exact not_standsAt_end hf ((relocated_of_relocate hf hj).2 d hd)

theorem resolve_eq_error (h : resolve code = .error e) : Reports code e := by
  rcases resolve_cases code with ⟨e', hp, he⟩ | ⟨found, size, hp, hrest⟩
  · cases he.symm.trans h
    obtain ⟨p, l, hl, rfl, hm, hn, -⟩ := places_eq_error hp
    exact .repeated hl (hm.resolve_right (by simp)) hn
  obtain ⟨rfl, hf⟩ := places_standsAt hp
  have hn := (places_nodup hp).1
  rcases hrest with ⟨l, hmin, he⟩ | ⟨hall, he⟩
  · cases he.symm.trans h
    obtain ⟨hl, hle⟩ := List.min?_eq_some_iff.mp hmin
    simp only [List.mem_filter, Option.isNone_iff_eq_none] at hl hle
    have hplaced (k : Label) (hk : k ∉ marks code) : found.lookup k = none :=
      not_not.mp fun h => hk ((mem_marks_iff hf).mpr h)
    exact .missing hn hl.1 (by simp [mem_marks_iff hf, hl.2]) fun k hk hkm => hle k ⟨hk, hplaced k hkm⟩
  · obtain ⟨p, i, hi, -, hr, hb⟩ := mapM_filter_eq_error (he.symm.trans h)
    have hfound (j : Instr) (hj : j ∈ code) (d : Dest) (hd : j.dest? = some d) : found.lookup d.label ≠ none :=
      hall _ (mem_branchLabels.mpr ⟨j, hj, d, hd, rfl⟩)
    obtain ⟨d, m, hd, hm, hle, rfl⟩ := relocate_eq_error hf hr (hfound i (List.mem_of_getElem? hi))
    obtain rfl : m = realCount code := Nat.le_antisymm hm.le hle
    refine .pastEnd hn (fun l hl => (mem_marks_iff hf).mpr (hall l hl)) hi hd hm fun l hl => ?_
    obtain ⟨j, hj, d', hd', rfl⟩ := mem_branchLabels.mp hl
    obtain ⟨k, hk⟩ := hb j hj (isMark_of_dest? hd')
    exact not_standsAt_end hf ((relocated_of_relocate hf hk).2 d' hd')

/-! What is reported is one thing only, and stands in the way of resolving. -/

private theorem not_nodup_of_repeated {l : Label} {p q : Nat} (hp : code[p]? = some (.mark l))
    (hl : l ∈ marks (code.take p)) (hlt : p < q) : ¬ (marks (code.take q)).Nodup := by
  intro hn
  have htake : marks (code.take (p + 1)) = marks (code.take p) ++ [l] := by
    rw [List.take_add_one, hp, marks_append]
    rfl
  have hsub : (marks (code.take (p + 1))).Sublist (marks (code.take q)) := by
    obtain ⟨k, rfl⟩ := Nat.exists_eq_add_of_le (show p + 1 ≤ q from hlt)
    rw [show code.take (p + 1 + k) = code.take (p + 1) ++ (code.drop (p + 1)).take k from List.take_add, marks_append]
    exact List.sublist_append_left ..
  have := List.nodup_append.mp (htake ▸ hn.sublist hsub)
  exact this.2.2 l hl l (by simp) rfl

private theorem not_nodup_of_mark {l : Label} {p : Nat} (hp : code[p]? = some (.mark l))
    (hl : l ∈ marks (code.take p)) : ¬ (marks code).Nodup := by
  have := not_nodup_of_repeated hp hl (List.getElem?_eq_some_iff.mp hp).1
  rwa [List.take_length] at this

private theorem mem_branchLabels_take {i : Instr} {d : Dest} {p q : Nat} (hp : code[p]? = some i) (hd : i.dest? = some d)
    (hlt : p < q) : d.label ∈ branchLabels (code.take q) :=
  mem_branchLabels.mpr ⟨i, List.mem_of_getElem? (List.getElem?_take_of_lt hlt ▸ hp), d, hd, rfl⟩

theorem Reports.not_resolvable (h : Reports code e) : ¬ Resolvable code := by
  intro r
  cases h with
  | repeated hp again _ => exact not_nodup_of_mark hp again r.once
  | missing _ used unplaced _ => exact unplaced (r.placed _ used)
  | pastEnd _ _ hp hd past _ =>
    exact r.inside _ (mem_branchLabels.mpr ⟨_, List.mem_of_getElem? hp, _, hd, rfl⟩) past

theorem Reports.unique {e' : LabelError} (h : Reports code e) (h' : Reports code e') : e = e' := by
  cases h with
  | @repeated p l hp again first =>
    cases h' with
    | @repeated q m hq again' first' =>
      rcases Nat.lt_trichotomy p q with hlt | rfl | hlt
      · exact absurd first' (not_nodup_of_repeated hp again hlt)
      · cases hp.symm.trans hq
        rfl
      · exact absurd first (not_nodup_of_repeated hq again' hlt)
    | missing once _ _ _ => exact absurd once (not_nodup_of_mark hp again)
    | pastEnd once _ _ _ _ _ => exact absurd once (not_nodup_of_mark hp again)
  | @missing l once used unplaced least =>
    cases h' with
    | repeated hq again' _ => exact absurd once (not_nodup_of_mark hq again')
    | @missing m _ used' unplaced' least' =>
      rw [Int.le_antisymm (least m used' unplaced') (least' l used unplaced)]
    | pastEnd _ placed _ _ _ _ => exact absurd (placed _ used) unplaced
  | @pastEnd p i d once placed hp hd past first =>
    cases h' with
    | repeated hq again' _ => exact absurd once (not_nodup_of_mark hq again')
    | missing _ used' unplaced' _ => exact absurd (placed _ used') unplaced'
    | @pastEnd q j d' _ _ hq hd' past' first' =>
      rcases Nat.lt_trichotomy p q with hlt | rfl | hlt
      · exact absurd past (first' _ (mem_branchLabels_take hp hd hlt))
      · cases hp.symm.trans hq
        cases hd.symm.trans hd'
        rfl
      · exact absurd past' (first _ (mem_branchLabels_take hq hd' hlt))

private theorem relocated_retarget {index : Label → Nat} {i : Instr}
    (hi : ∀ d, i.dest? = some d → StandsAt code d.label (index d.label)) : Relocated code i (retarget index i) := by
  cases hd : i.dest? with
  | none =>
    rw [retarget_none index i hd]
    exact .plain hd
  | some d =>
    have : retarget index i = i.setDest (.toIndex (index d.label)) := by simp [retarget, hd]
    exact this ▸ .branch hd (hi d hd)

theorem resolve_sameControl (h : resolve code = .ok full) : SameControl code full.toArray := by
  obtain ⟨index, hlen, hp⟩ := resolve_placed h
  have hs : full.toArray.size = realCount code := by simp [hlen]
  have hc := (resolve_eq_ok h).1.placed
  obtain ⟨p, hl⟩ : ∃ p, Lands code 0 p := exists_lands (Nat.zero_le _)
  refine ⟨⟨p, hl, hl.realsBefore_eq.symm⟩, fun n hn => ?_, fun p i hi hm => ?_, fun p hstop b t => hp.flows_iff hs hc hstop,
    fun p hstop bs t => hp.travels_iff hs hc hstop⟩
  · obtain ⟨p, hstop, he⟩ := exists_stops (hs ▸ hn)
    exact ⟨p, ⟨hstop, he⟩, fun q ⟨hq, he'⟩ => hq.eq hstop (he'.trans he.symm)⟩
  · refine ⟨_, by simpa using hp.of_getElem? hi hm, relocated_retarget fun d hd => ?_⟩
    obtain ⟨k, hk⟩ := mem_marks.mp (hc d.label (mem_branchLabels.mpr ⟨i, List.mem_of_getElem? hi, d, hd, rfl⟩))
    rwa [hp.index_eq hk, Nat.zero_add]

/-- Labels can be resolved just where each branch has one place to go to. Then only marks are lost, only branches are
changed, and control goes the same ways; else the error says what the first fault is. -/
theorem resolve_exact (code : Code) :
    ((∃ full, resolve code = .ok full) ↔ Resolvable code) ∧
    (∀ full, resolve code = .ok full →
      List.Forall₂ (Relocated code) (code.filter fun i => !i.isMark) full ∧ SameControl code full.toArray) ∧
    ∀ e, resolve code = .error e ↔ Reports code e := by
  refine ⟨⟨fun ⟨full, h⟩ => (resolve_eq_ok h).1, fun r => ?_⟩, fun full h => ⟨(resolve_eq_ok h).2, resolve_sameControl h⟩,
    fun e => ⟨resolve_eq_error, fun r => ?_⟩⟩
  · cases h : resolve code with
    | ok full => exact ⟨full, rfl⟩
    | error e => exact absurd r (resolve_eq_error h).not_resolvable
  · cases h : resolve code with
    | ok full => exact absurd (resolve_eq_ok h).1 r.not_resolvable
    | error e' => rw [(resolve_eq_error h).unique r]

/-- A loop with three labels in a row, one of which nothing uses. -/
example : resolve [.mark 1, .ldc (.bool true), .ifeq (.toLabel 2), .goto (.toLabel 1), .mark 2, .mark 3, .mark 4,
    .ret .void] = .ok [.ldc (.bool true), .ifeq (.toIndex 3), .goto (.toIndex 0), .ret .void] := by decide

end

end WhileStack.Machine
