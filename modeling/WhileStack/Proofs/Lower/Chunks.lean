import WhileStack.Proofs.Lower.Inversion
import WhileStack.Proofs.Lower.Layout
import WhileStack.Proofs.Lower.Symbols
import WhileStack.Proofs.Machine.Chunk

/-! Code with a derivation comes in chunks: a chunk uses labels of its own only, and from any depth of the stack it goes
to a depth that depends on the derived type alone. -/
namespace WhileStack.Lower
open Source (Expr Stmt)
open Machine

/-- Code with labels between two counts that takes `p` values from the stack and leaves `q`. -/
structure Chunk (n n' p q : Nat) (c : Code) : Prop where
  labels : LabelsIn n n' c
  sinks : ∀ d, Sinks n n' (d + p) c (d + q)

namespace Chunk
variable {n n₁ n₂ p q r : Nat} {c c' : Code} {i : Instr}

theorem append (h : Chunk n n₁ p q c) (h' : Chunk n₁ n₂ q r c') : Chunk n n₂ p r (c ++ c') :=
  ⟨h.labels.append h'.labels, fun d => (h.sinks d).append (h'.sinks d) h.labels.le h'.labels.le⟩

/-- Values further down the stack are left alone. -/
theorem lift (h : Chunk n n₁ p q c) (k : Nat) : Chunk n n₁ (k + p) (k + q) c :=
  ⟨h.labels, fun d => by simpa only [Nat.add_assoc] using h.sinks (d + k)⟩

theorem nil : Chunk n n p p [] := ⟨.plain rfl rfl, fun _ => .nil⟩

/-- An instruction that neither branches nor leaves. -/
theorem one (hm : i.isMark = false) (hd : i.dest? = none) (hr : i.isReturn = false) (ht : i.takes = i.pops) (hp : i.pops ≤ p)
    (hq : q = p - i.pops + i.pushes) : Chunk n n p q [i] :=
  ⟨.plain (by simp [marks_cons hm]) (by simp [branchLabels_cons, hd]),
    fun d => .one fun _ => .plain hm hd hr ht (by omega) (by simp only [Instr.depthAfter]; omega)⟩

/-- A return finds its value alone on the stack. -/
theorem leave {t : Machine.Ty} : Sinks n n t.width [.ret t] 0 :=
  .one fun _ => ⟨rfl, rfl, Nat.le_refl _, fun _ h => by simp [Instr.dest?] at h,
    fun h => by simp [Instr.fallsThrough] at h, fun _ => rfl⟩

end Chunk

section
variable {n n₁ n₂ n₃ d : Nat} {c y z b u : Code}

private theorem branch_suits {level : Label → Nat} {i : Instr} {dest : Dest} (hi : i.dest? = some dest)
    (hr : i.isReturn = false) (hp : i.pops ≤ d) (hl : level dest.label = i.depthAfter d) :
    Suits level i d (i.depthAfter d) :=
  ⟨isMark_of_dest? hi, Instr.takes_of_dest? hi, hp, fun _ h => by cases hi.symm.trans h; exact hl, fun _ => rfl,
    fun h => by simp [hr] at h⟩

private theorem goto_suits {level : Label → Nat} {dest : Dest} {e : Nat} (hl : level dest.label = d) :
    Suits level (.goto dest) d e :=
  ⟨rfl, rfl, Nat.zero_le _, fun _ h => by cases h; exact hl, fun h => by simp [Instr.fallsThrough] at h,
    fun h => by simp [Instr.isReturn] at h⟩

private theorem ldc_suits {level : Label → Nat} {k : Const} : Suits level (.ldc k) d (d + 1) :=
  .plain rfl rfl rfl rfl (Nat.zero_le _) rfl

/-- The next two labels get any depths. -/
private theorem two_levels (d e : Nat) : Levels n (n + 2) fun level => level (label n 1) = d ∧ level (label n 2) = e :=
  (Levels.next d).and (Levels.next e) (by omega) (by omega)

theorem compareChunk_chunk (cond : Cond) : Chunk n (n + 2) 2 1 (compareChunk cond n) := by
  refine ⟨⟨by omega, ?_, ?_, ?_⟩, fun d => ?_⟩
  · simp [compareChunk, marks]
  · intro l hl
    simp only [compareChunk, marks, List.mem_cons, List.not_mem_nil, or_false] at hl
    rcases hl with rfl | rfl <;> exact ⟨lt_label.mpr (by omega), label_le.mpr (by omega)⟩
  · simp [compareChunk, marks, branchLabels, Instr.dest?, Dest.toLabel]
  · refine (two_levels d (d + 1)).imp ?_
    rintro level ⟨h₁, h₂⟩
    exact ⟨_, .instr (branch_suits rfl rfl (by simp [Instr.pops]) h₁) (.instr ldc_suits (.instr (goto_suits h₂)
      (.mark h₁ (.instr ldc_suits (.mark h₂ .nil)))))⟩

/-- Two chunks with two labels between their own: the labels of all of it. -/
private theorem labels_between (hc : LabelsIn n n₁ c) (hz : LabelsIn (n₁ + 2) n₂ z) {code : Code}
    (hm : (marks code).Perm (label n₁ 1 :: label n₁ 2 :: (marks c ++ marks z)))
    (hb : ∀ l ∈ branchLabels code, l = label n₁ 1 ∨ l = label n₁ 2 ∨ l ∈ branchLabels c ∨ l ∈ branchLabels z) :
    LabelsIn n n₂ code where
  le := by have := hc.le; have := hz.le; omega
  nodup := by
    have hcl : ∀ k, label n₁ (k + 1) ∉ marks c := fun k h => by
      have := label_le.mp (hc.range _ h).2
      omega
    have hzl : ∀ k, k ≤ 2 → label n₁ k ∉ marks z := fun k hk h => by
      have := lt_label.mp (hz.range _ h).1
      omega
    rw [hm.nodup_iff]
    refine List.nodup_cons.mpr ⟨?_, List.nodup_cons.mpr ⟨?_, List.nodup_append.mpr ⟨hc.nodup, hz.nodup, ?_⟩⟩⟩
    · simp [hcl 0, hzl 1]
    · simp [hcl 1, hzl 2]
    · rintro l hl _ hl' rfl
      have := (hc.range l hl).2
      have := (hz.range l hl').1
      omega
  range l hl := by
    have h₁ := hc.le
    have h₂ := hz.le
    rcases List.mem_cons.mp (hm.mem_iff.mp hl) with rfl | hl
    · exact ⟨lt_label.mpr (by omega), label_le.mpr (by omega)⟩
    rcases List.mem_cons.mp hl with rfl | hl
    · exact ⟨lt_label.mpr (by omega), label_le.mpr (by omega)⟩
    rcases List.mem_append.mp hl with hl | hl
    · have := hc.range l hl
      omega
    · have := hz.range l hl
      omega
  closed l hl := by
    rw [hm.mem_iff]
    rcases hb l hl with rfl | rfl | hl | hl
    · simp
    · simp
    · simp [hc.closed l hl]
    · simp [hz.closed l hl]

theorem logicChunk_chunk {isOr : Bool} (hc : Chunk n n₁ 0 1 c) (hz : Chunk (n₁ + 2) n₂ 0 1 z) :
    Chunk n n₂ 0 1 (logicChunk isOr n₁ c z) := by
  refine ⟨labels_between hc.labels hz.labels ?_ ?_, fun d => ?_⟩
  · have : (logicBranch isOr (.toLabel (label n₁ 1))).isMark = false := by cases isOr <;> rfl
    simp only [logicChunk, marks_append, marks_cons this, marks]
    grind
  · have : (logicBranch isOr (.toLabel (label n₁ 1))).dest? = some (.toLabel (label n₁ 1)) := by cases isOr <;> rfl
    intro l hl
    simp only [logicChunk, branchLabels_append, branchLabels_cons, this] at hl
    simp [Instr.dest?, Dest.toLabel] at hl
    grind
  · refine (((hc.sinks d).and (two_levels d (d + 1)) hc.labels.le (by omega)).and (hz.sinks d) ?_ hz.labels.le).imp ?_
    · have := hc.labels.le
      omega
    · rintro level ⟨⟨⟨_, hd⟩, h₁, h₂⟩, ⟨_, hd'⟩⟩
      have hs : Suits level (logicBranch isOr (.toLabel (label n₁ 1))) (d + 1) d := by
        cases isOr <;> exact branch_suits rfl rfl (Nat.le_add_left 1 d) h₁
      exact ⟨_, (((hd.append (.one hs)).append hd').append
        (.instr (goto_suits h₂) (.mark h₁ (.instr ldc_suits (.mark h₂ .nil)))))⟩

/-- Code of statements starts and ends with an empty stack. -/
structure Flat (n n' : Nat) (c : Code) : Prop where
  labels : LabelsIn n n' c
  sinks : Sinks n n' 0 c 0

theorem Flat.append (h : Flat n n₁ c) (h' : Flat n₁ n₂ z) : Flat n n₂ (c ++ z) :=
  ⟨h.labels.append h'.labels, h.sinks.append h'.sinks h.labels.le h'.labels.le⟩

theorem Chunk.flat (h : Chunk n n₁ 0 0 c) : Flat n n₁ c := ⟨h.labels, by simpa using h.sinks 0⟩

theorem ifChunk_flat {returns : Bool} (hc : Chunk n n₁ 0 1 c) (hy : Flat (n₁ + 2) n₂ y) (hz : Flat n₂ n₃ z) :
    Flat n n₃ (ifChunk n₁ c y returns z) := by
  have h₁ := hc.labels.le
  have h₂ := hy.labels.le
  have h₃ := hz.labels.le
  refine ⟨labels_between hc.labels (hy.labels.append hz.labels) ?_ ?_, ?_⟩
  · cases returns <;> simp [ifChunk, marks] <;> grind
  · intro l hl
    cases returns <;> simp [ifChunk, branchLabels_cons, Instr.dest?, Dest.toLabel] at hl ⊢ <;> grind
  · refine (((hc.sinks 0).and (two_levels 0 0) h₁ (by omega)).and (hy.sinks.and hz.sinks h₂ h₃) (by omega) (by omega)).imp ?_
    rintro level ⟨⟨⟨_, hd⟩, hl₁, hl₂⟩, ⟨_, hdy⟩, ⟨_, hdz⟩⟩
    obtain ⟨ds, hj⟩ : ∃ ds, Deep level 0 (if returns then [] else [.goto (.toLabel (label n₁ 2))]) ds 0 := by
      cases returns
      · exact ⟨_, .one (goto_suits hl₂)⟩
      · exact ⟨_, .nil⟩
    have hs : Suits level (.ifeq (.toLabel (label n₁ 1))) 1 0 := branch_suits rfl rfl (Nat.le_refl 1) hl₁
    exact ⟨_, (((((hd.append (.one hs)).append hdy).append hj).append (.mark hl₁ .nil)).append hdz).append (.mark hl₂ .nil)⟩

theorem loopChunk_flat (hc : Chunk (n + 2) n₁ 0 1 c) (hb : Flat n₁ n₂ b) (hu : Flat n₂ n₃ u) :
    Flat n n₃ (loopChunk n c b u) := by
  have h₁ := hc.labels.le
  have h₂ := hb.labels.le
  have h₃ := hu.labels.le
  refine ⟨labels_between (c := []) (.plain rfl rfl) ((hc.labels.append hb.labels).append hu.labels) ?_ ?_, ?_⟩
  · simp [loopChunk, marks]
    grind
  · intro l hl
    simp [loopChunk, branchLabels_cons, Instr.dest?, Dest.toLabel] at hl ⊢
    grind
  · refine ((two_levels 0 0).and (((hc.sinks 0).and hb.sinks h₁ h₂).and hu.sinks (by omega) h₃) (by omega) (by omega)).imp ?_
    rintro level ⟨⟨hl₁, hl₂⟩, ⟨⟨_, hd⟩, ⟨_, hdb⟩⟩, ⟨_, hdu⟩⟩
    have hs : Suits level (.ifeq (.toLabel (label n 2))) 1 0 := branch_suits rfl rfl (Nat.le_refl 1) hl₂
    exact ⟨_, ((((Deep.append (.mark hl₁ .nil) hd).append (.one hs)).append hdb).append hdu).append
      (.instr (goto_suits hl₁) (.mark hl₂ .nil))⟩

end

section
variable {v : View} {n n' : Nat} {e : Expr} {c : Code} {t : Machine.Ty}

/-- The derived type is that of the expression. -/
theorem LowersExpr.layout_eq (h : LowersExpr v n e c t n') : layout v.env.aliases e.ty = .ok t := by
  cases h with
  | keep _ _ ha => exact layout_of_valueLayout ha
  | convert _ _ ha _ => exact layout_of_valueLayout ha
  | _ => assumption

theorem LowersExpr.isValue (h : LowersExpr v n e c t n') (ht : t.isVoid = false) : t.isValue = true :=
  layout_isValue h.layout_eq ht

theorem width_eq_one (h : t.isVoid = false) : t.width = 1 := by simp [Machine.Ty.width, h]

private theorem width_of_value (h : t.isValue = true) : t.width = 1 := width_eq_one (Machine.Ty.isVoid_of_isValue h)

theorem receiver_chunk (v : View) : Chunk n n 0 1 [receiverCode v] := by
  unfold receiverCode
  split <;> exact .one rfl rfl rfl rfl (Nat.zero_le _) rfl

theorem LowersEquality.chunk {isNe : Bool} (h : LowersEquality isNe t n c n') : Chunk n n' 2 1 c := by
  cases h with
  | structural =>
    have heq : Chunk n n 2 1 [.equals] := .one rfl rfl rfl rfl (Nat.le_refl 2) rfl
    cases isNe
    · exact heq
    · exact heq.append (.append (.one rfl rfl rfl rfl (Nat.zero_le _) rfl) (.one rfl rfl rfl rfl (Nat.le_refl 2) rfl))
  | numeric => exact compareChunk_chunk _

theorem text_width (h : t = .string ∨ ∃ u, t = .list u) : t.width = 1 := by
  obtain rfl | ⟨u, rfl⟩ := h <;> rfl

mutual

/-- The code of an expression leaves as many values as its type takes. -/
theorem LowersExpr.chunk {v n n' e c t} (hv : v.symbols.HoldsValues) : LowersExpr v n e c t n' → Chunk n n' 0 t.width c
  | .const hk _ => by
    cases hk <;> exact .one rfl rfl rfl rfl (Nat.zero_le _) rfl
  | .var (l := l) hl _ => by
    rw [width_eq_one (hv.value _ (Symbols.mem_of_lookup? hl))]
    have hload : Chunk n n 0 1 [.load l.slot l.ty] := .one rfl rfl rfl rfl (Nat.zero_le _) rfl
    cases l.ty.isComposite
    · exact hload
    · exact hload.append (.one rfl rfl rfl rfl (Nat.le_refl 1) rfl)
  | .logic _ hl hr _ => logicChunk_chunk (hl.chunk hv) (hr.chunk hv)
  | .equality _ hl ht hr hc _ => by
    have hl := hl.chunk hv
    have hr := hr.chunk hv
    rw [width_eq_one ht] at hl hr
    exact (hl.append (hr.lift 1)).append hc.chunk
  | .append ht hl hr _ => by
    have hl := hl.chunk hv
    have hr := hr.chunk hv
    rw [text_width ht] at hl hr ⊢
    exact (hl.append (hr.lift 1)).append (.one rfl rfl rfl rfl (Nat.le_refl 2) rfl)
  | .arith _ hl hr _ => ((hl.chunk hv).append ((hr.chunk hv).lift 1)).append (.one rfl rfl rfl rfl (Nat.le_refl 2) rfl)
  | .order _ hl hr _ => ((hl.chunk hv).append ((hr.chunk hv).lift 1)).append (compareChunk_chunk _)
  | .not h _ =>
    (h.chunk hv).append (.append (.one rfl rfl rfl rfl (Nat.zero_le _) rfl) (.one rfl rfl rfl rfl (Nat.le_refl 2) rfl))
  | .neg h _ => (h.chunk hv).append (.one rfl rfl rfl rfl (Nat.le_refl 1) rfl)
  | .length ht h _ => by
    have h := h.chunk hv
    rw [text_width ht] at h
    exact h.append (.one rfl rfl rfl rfl (Nat.le_refl 1) rfl)
  | .keep h _ _ => h.chunk hv
  | .convert h hs ha _ => by
    have h := h.chunk hv
    rw [width_eq_one hs] at h
    rw [width_of_value (valueLayout_isValue ha)]
    exact h.append (.one rfl rfl rfl rfl (Nat.le_refl 1) rfl)
  | .call _ _ ha _ => by
    refine ((receiver_chunk v).append ((ha.chunk hv).lift 1)).append (.one rfl rfl rfl rfl ?_ ?_)
    · simp only [Instr.pops]; omega
    · simp only [Instr.pops, Instr.pushes]; omega
  | .index hs hp _ => by
    have ht := hs.isValue rfl
    rw [width_of_value (by simpa only [Machine.Ty.isValue] using ht)]
    exact ((hs.chunk hv).append ((hp.chunk hv).lift 1)).append (.one rfl rfl rfl rfl (Nat.le_refl 2) rfl)
  | .list _ ha => by
    have ha := ha.chunk hv
    rw [List.length_replicate] at ha
    exact ha.append (.one rfl rfl rfl rfl (Nat.le_refl _)
      (by simp [Instr.pops, Instr.pushes, Machine.Ty.width, Machine.Ty.isVoid]))
  | .record _ _ ha => by
    have ha := ha.chunk hv
    rw [List.length_map] at ha
    exact ha.append (.one rfl rfl rfl rfl (Nat.le_refl _)
      (by simp [Instr.pops, Instr.pushes, Machine.Ty.width, Machine.Ty.isVoid, Machine.Ty.fields]))
  | .field hs hf _ => by
    obtain ⟨j, -, hj⟩ := Machine.Ty.mem_of_findField hf
    have ht := Machine.Ty.isValue_of_mem (by simpa only [Machine.Ty.isValue] using hs.isValue rfl) (List.mem_of_getElem? hj)
    rw [width_of_value ht]
    exact (hs.chunk hv).append (.one rfl rfl rfl rfl (Nat.le_refl 1) rfl)

theorem LowersArgs.chunk {v n n' ts es c} (hv : v.symbols.HoldsValues) : LowersArgs v n ts es c n' → Chunk n n' 0 ts.length c
  | .nil => .nil
  | .cons h ht ha => by
    have h := h.chunk hv
    rw [width_eq_one ht] at h
    have := h.append ((ha.chunk hv).lift 1)
    rwa [Nat.add_comm 1] at this

end

end

section
variable {v : View} {h : Host} {n n' : Nat} {e : Expr} {c : Code} {t : Machine.Ty} {s s' : State}

theorem LowersTarget.chunk (hv : v.symbols.HoldsValues) (ht : LowersTarget v n e c t n') : Chunk n n' 0 1 c := by
  induction ht with
  | var => exact .one rfl rfl rfl rfl (Nat.zero_le _) rfl
  | index _ hp _ ih => exact (ih.append ((hp.chunk hv).lift 1)).append (.one rfl rfl rfl rfl (Nat.le_refl 2) rfl)
  | field _ _ _ ih => exact ih.append (.one rfl rfl rfl rfl (Nat.le_refl 1) rfl)
  | value _ he ht =>
    have := he.chunk hv
    rwa [width_eq_one ht] at this

theorem LowersDecl.keeps {P : Symbols → Prop} (hP : Symbols.Keeps P) {d : Source.VarDecl} (hp : P s.symbols)
    (hd : LowersDecl h s d c s') : P s'.symbols := by
  cases hd with
  | init _ _ _ _ hl => exact hP.declare hp hl
  | unset _ _ hl => exact hP.declare hp hl

theorem LowersDecl.valid {d : Source.VarDecl} (hv : s.symbols.Valid) (hd : LowersDecl h s d c s') : s'.symbols.Valid :=
  hd.keeps .valid hv

theorem LowersDecl.grows {d : Source.VarDecl} (hd : LowersDecl h s d c s') : s.symbols.Grows s'.symbols := by
  cases hd with
  | init _ _ _ _ hl => exact .declare hl
  | unset _ _ hl => exact .declare hl

theorem LowersDecl.flat {d : Source.VarDecl} (hv : s.symbols.HoldsValues) (hd : LowersDecl h s d c s') :
    Flat s.labels s'.labels c := by
  cases hd with
  | init _ _ he ht _ =>
    have he := he.chunk hv
    rw [width_eq_one ht] at he
    exact Chunk.flat (he.append (.one rfl rfl rfl rfl (Nat.le_refl 1) rfl))
  | unset => exact Chunk.flat (.one rfl rfl rfl rfl (Nat.zero_le _) rfl)

theorem LowersAssign.flat {target : Source.Target} (hv : v.symbols.HoldsValues) (ha : LowersAssign v n e target c n') :
    Flat n n' c := by
  cases ha with
  | var he ht _ =>
    have he := he.chunk hv
    rw [width_eq_one ht] at he
    exact Chunk.flat (he.append (.one rfl rfl rfl rfl (Nat.le_refl 1) rfl))
  | index he ht hs hp =>
    have he := he.chunk hv
    rw [width_eq_one ht] at he
    have hsp := (he.append ((hs.chunk hv).lift 1)).append ((hp.chunk hv).lift 2)
    exact Chunk.flat (hsp.append (.one rfl rfl rfl rfl (Nat.le_refl 3) rfl))
  | field he ht hs _ =>
    have he := he.chunk hv
    rw [width_eq_one ht] at he
    exact Chunk.flat ((he.append ((hs.chunk hv).lift 1)).append (.one rfl rfl rfl rfl (Nat.le_refl 2) rfl))

mutual

theorem LowersStmt.keeps {P : Symbols → Prop} (hP : Symbols.Keeps P) {h s stmt c s'} (hp : P s.symbols) :
    LowersStmt h s stmt c s' → P s'.symbols
  | .decl hd => hd.keeps hP hp
  | .assign _ | .print _ _ | .leave _ | .ret _ _ | .effect _ => hp
  | .ifElse _ hy hz => hP.exit (hz.keeps hP (hP.enter (hP.exit (hy.keeps hP (hP.enter hp)))))
  | .whileDo _ hb => hP.exit (hb.keeps hP (hP.enter hp))
  | .forDo hi _ hb hu => hP.exit (hu.keeps hP (hP.exit (hb.keeps hP (hP.enter (hi.keeps hP (hP.enter hp))))))

theorem LowersBlock.keeps {P : Symbols → Prop} (hP : Symbols.Keeps P) {h s stmts c s'} (hp : P s.symbols) :
    LowersBlock h s stmts c s' → P s'.symbols
  | .nil => hp
  | .cons hs hb => hb.keeps hP (hs.keeps hP hp)

end

theorem LowersStmt.valid {stmt : Stmt} (hv : s.symbols.Valid) (hs : LowersStmt h s stmt c s') : s'.symbols.Valid :=
  hs.keeps .valid hv

theorem LowersBlock.valid {stmts : List Stmt} (hv : s.symbols.Valid) (hb : LowersBlock h s stmts c s') :
    s'.symbols.Valid := hb.keeps .valid hv

mutual

theorem LowersStmt.grows {h s stmt c s'} : LowersStmt h s stmt c s' → s.symbols.Grows s'.symbols
  | .decl hd => hd.grows
  | .assign _ | .print _ _ | .leave _ | .ret _ _ | .effect _ => .refl _
  | .ifElse _ hy hz => hy.grows.exit.trans hz.grows.exit
  | .whileDo _ hb => hb.grows.exit
  | .forDo hi _ hb hu => ((hi.grows.trans hb.grows.exit).trans hu.grows).exit

theorem LowersBlock.grows {h s stmts c s'} : LowersBlock h s stmts c s' → s.symbols.Grows s'.symbols
  | .nil => .refl _
  | .cons hs hb => hs.grows.trans hb.grows

end

mutual

/-- The code of a statement leaves the stack empty, also where it returns before its end. -/
theorem LowersStmt.flat {h s stmt c s'} (hv : s.symbols.HoldsValues) : LowersStmt h s stmt c s' → Flat s.labels s'.labels c
  | .decl hd => hd.flat hv
  | .assign ha => ha.flat hv
  | .print he ht => by
    have he := he.chunk hv
    rw [width_eq_one ht] at he
    exact Chunk.flat (he.append (.one rfl rfl rfl rfl (Nat.le_refl 1) rfl))
  | .leave _ => ⟨.plain rfl rfl, Chunk.leave (t := .void)⟩
  | .ret he _ => by
    have he := he.chunk hv
    have hs := he.sinks 0
    simp only [Nat.zero_add] at hs
    exact ⟨he.labels.append (.plain rfl rfl), hs.append Chunk.leave he.labels.le (Nat.le_refl _)⟩
  | .effect (t := t) he => by
    have he := he.chunk hv
    cases ht : t.isVoid with
    | true =>
      rw [Machine.Ty.width, ht] at he
      simpa using he.flat
    | false =>
      rw [width_eq_one ht] at he
      exact Chunk.flat (he.append (.one rfl rfl rfl rfl (Nat.le_refl 1) rfl))
  | .ifElse hc hy hz => by
    have hvy := hy.keeps .holdsValues hv.enter
    have hzf := hz.flat hvy.exit.enter
    exact ifChunk_flat (hc.chunk hv) (hy.flat hv.enter) hzf
  | .whileDo hc hb => loopChunk_flat (hc.chunk hv) (hb.flat hv.enter) Chunk.nil.flat
  | .forDo hi hc hb hu => by
    have hvi := hi.keeps .holdsValues hv.enter
    have hvb := hb.keeps .holdsValues hvi.enter
    have huf := hu.flat hvb.exit
    exact (hi.flat hv.enter).append (loopChunk_flat (hc.chunk hvi) (hb.flat hvi.enter) huf)

theorem LowersBlock.flat {h s stmts c s'} (hv : s.symbols.HoldsValues) :
    LowersBlock h s stmts c s' → Flat s.labels s'.labels c
  | .nil => Chunk.nil.flat
  | .cons hs hb => (hs.flat hv).append (hb.flat (hs.keeps .holdsValues hv))

end

end

end WhileStack.Lower
