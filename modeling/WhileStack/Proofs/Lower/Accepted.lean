import WhileStack.Proofs.Lower.Chunks
import WhileStack.Proofs.Lower.Early
import WhileStack.Proofs.Machine.Closed

/-! Nothing fails behind lowering: the labels of lowered code can be resolved and its depth is accepted. -/
namespace WhileStack.Lower
open Source (FunDecl Stmt)
open Machine

section
variable {n n₁ n₂ n₃ : Nat} {c y z : Code}

private theorem ifChunk_closes (hc : LabelsIn n n₁ c) (hy : LabelsIn (n₁ + 2) n₂ y) (hz : LabelsIn n₂ n₃ z)
    (h : Closes z) : Closes (ifChunk n₁ c y true z) := by
  obtain ⟨a, i, b, rfl, hm, hf, hb, hl⟩ := h
  refine ⟨c ++ [.ifeq (.toLabel (label n₁ 1))] ++ y ++ [.mark (label n₁ 1)] ++ a, i, b ++ [.mark (label n₁ 2)],
    by simp [ifChunk], hm, hf, ?_, fun l hlb hlm => ?_⟩
  · intro j hj
    rcases List.mem_append.mp hj with hj | hj
    · exact hb j hj
    · obtain rfl := List.mem_singleton.mp hj
      rfl
  · have hmb : l ∈ marks b ∨ l = label n₁ 2 := by simpa [marks] using hlm
    have hbl : l ∈ branchLabels c ∨ l = label n₁ 1 ∨ l ∈ branchLabels y ∨ l ∈ branchLabels (a ++ i :: b) := by
      simpa [ifChunk, branchLabels_cons, Instr.dest?, Dest.toLabel, or_assoc] using hlb
    have hle := hy.le
    have hmb : (l ∈ marks b ∧ (n₂ : Int) < l) ∨ @Eq Int l (n₁ + 2 : Nat) :=
      hmb.imp_left fun h => ⟨h, (hz.range l (by simp [marks_cons hm, h])).1⟩
    rcases hbl with h | h | h | h
    · have := (hc.range l (hc.closed l h)).2
      omega
    · have : @Eq Int l (n₁ + 1 : Nat) := h
      omega
    · have := hy.range l (hy.closed l h)
      omega
    · have := (hz.range l (hz.closed l h)).1
      rcases hmb with ⟨h', -⟩ | h'
      · exact hl l h h'
      · omega

end

section
variable {h : Host}

mutual

/-- Control does not run past a statement that returns on every path. -/
theorem LowersStmt.closes {h s stmt c s'} (hv : s.symbols.HoldsValues) (hr : Stmt.returns stmt = true) :
    LowersStmt h s stmt c s' → Closes c
  | .leave _ => ⟨[], .ret .void, [], rfl, rfl, rfl, by simp, by simp⟩
  | .ret (c := c) _ _ => ⟨c, .ret h.sig.ret, [], rfl, rfl, rfl, by simp, by simp⟩
  | .ifElse hc hy hz => by
    obtain ⟨hry, hrz⟩ := Bool.and_eq_true_iff.mp (by simpa only [Stmt.returns] using hr)
    have hvy := (hy.keeps .holdsValues hv.enter).exit.enter
    rw [hry]
    exact ifChunk_closes (hc.chunk hv).labels (hy.flat hv.enter).labels (hz.flat hvy).labels (hz.closes hvy hrz)
  | .decl _ | .assign _ | .print _ _ | .effect _ | .whileDo _ _ | .forDo _ _ _ _ => by simp [Stmt.returns] at hr

theorem LowersBlock.closes {h s stmts c s'} (hv : s.symbols.HoldsValues) (hr : Stmt.allReturn stmts = true) :
    LowersBlock h s stmts c s' → Closes c
  | .nil => by simp [Stmt.allReturn] at hr
  | @LowersBlock.cons _ _ _ _ _ rest _ _ hs hb => by
    cases rest with
    | nil =>
      cases hb
      rw [List.append_nil]
      exact hs.closes hv (by simpa [Stmt.allReturn] using hr)
    | cons stmt' rest =>
      have hvs := hs.keeps .holdsValues hv
      exact .prepend (hs.flat hv).labels (hb.flat hvs).labels (hb.closes hvs (by simpa [Stmt.allReturn] using hr))

end

end

section
variable {env : Env} {f : FunDecl} {sig : Signature} {s symbols : Symbols} {code : Code}

private theorem declareParams_valid {seen : List String} {ps : List (String × Machine.Ty)} {s' : Symbols}
    (hv : s.Valid) (h : declareParams f seen ps s = .ok s') : s'.Valid := by
  induction ps generalizing seen s with
  | nil => cases h; exact hv
  | cons p ps ih =>
    obtain ⟨n, t⟩ := p
    simp only [declareParams] at h
    split at h
    · cases h
    · split at h
      · cases h
      · rename_i hd
        exact ih (hv.declare hd) h

/-- One slot stands in front of the parameters. -/
theorem initialSymbols_eq_ok (h : initialSymbols env f sig = .ok s) :
    ∃ l, declareParams f [] ((f.params.map Prod.fst).zip (sig.params.drop (sig.params.length - f.params.length)))
      ⟨[], [], [l]⟩ = .ok s := by
  unfold initialSymbols at h
  rcases hr : Symbols.empty.reserve (implicitSlot env f).1 (implicitSlot env f).2 with e | ⟨l, s₀⟩
  · simp [hr, Partial.mapError_error, bind, Except.bind] at h
  simp only [hr, Partial.mapError_ok, bind, Except.bind] at h
  unfold Symbols.reserve at hr
  split at hr
  · cases hr
  · cases hr
    exact ⟨_, h⟩

theorem reserved_valid (l : Machine.Local) : (⟨[], [], [l]⟩ : Symbols).Valid where
  reserved := Nat.zero_lt_one
  nodup := List.nodup_nil
  bound := nofun
  value := nofun

theorem initialSymbols_valid (h : initialSymbols env f sig = .ok s) : s.Valid := by
  obtain ⟨l, hd⟩ := initialSymbols_eq_ok h
  exact declareParams_valid (reserved_valid l) hd

/-- Lowered code is resolved and accepted. -/
theorem bodyCode_accepted (h : bodyCode env f sig = .ok (code, symbols)) :
    ∃ full, resolve code = .ok full ∧ ∃ m, maxDepth full.toArray = .ok m := by
  obtain ⟨s₀, b, s, hs, hb, rfl, -⟩ := bodyCode_eq_ok h
  have hb := lowersBlock f.body hb
  have hv := (initialSymbols_valid hs).enter
  have hf := hb.flat hv.toHoldsValues
  unfold closing
  cases hr : Stmt.allReturn f.body with
  | true =>
    rw [if_pos rfl, List.append_nil]
    exact (hb.closes hv.toHoldsValues hr).accepted hf.labels hf.sinks
  | false =>
    obtain ⟨i, hi, hm, hd, hfall, hsinks⟩ :
        ∃ i, (if sig.ret.isVoid = true then [Instr.ret .void] else [.unreachable]) = [i] ∧
          i.isMark = false ∧ i.dest? = none ∧ i.fallsThrough = false ∧ ∀ n, Sinks n n 0 [i] 0 := by
      cases sig.ret.isVoid with
      | true => exact ⟨_, rfl, rfl, rfl, rfl, fun _ => Chunk.leave (t := .void)⟩
      | false =>
        exact ⟨_, rfl, rfl, rfl, rfl, fun _ => .one fun _ =>
          ⟨rfl, rfl, Nat.zero_le _, nofun, fun h => by simp [Instr.fallsThrough] at h,
            fun h => by simp [Instr.isReturn] at h⟩⟩
    simp only [Bool.false_eq_true, if_false, hi]
    have hl : LabelsIn 0 s.labels (b ++ [i]) :=
      hf.labels.append (.plain (by simp [marks_cons hm]) (by simp [branchLabels_cons, hd]))
    have hc : Closes (b ++ [i]) := ⟨b, i, [], rfl, hm, hfall, by simp, by simp⟩
    exact hc.accepted hl (hf.sinks.append (hsinks _) hf.labels.le (Nat.le_refl _))

end

section
variable {env : Env} {f : FunDecl} {b : Bool}

/-- A function is not lowered for a cause of its own, if at all. -/
theorem isLate_lowerFunction {e : Cause} (h : lowerFunction env f = .error e) : e.isLate = false := by
  unfold lowerFunction at h
  rcases hs : signatureIn env f with e' | sig
  · simp only [hs, bind, Except.bind, Except.error.injEq] at h
    exact h ▸ isLate_signatureIn hs
  rcases hb : bodyCode env f sig with e' | ⟨code, symbols⟩
  · simp only [hs, hb, bind, Except.bind, Except.error.injEq] at h
    exact h ▸ isLate_bodyCode hb
  obtain ⟨full, hr, m, hm⟩ := bodyCode_accepted hb
  simp [hs, hb, hr, stackOf, hm, bind, Except.bind, Partial.mapError_ok] at h

theorem lowerFunction_withVerify : lowerFunction (env.withVerify b) f = lowerFunction env f := by
  have hsig : signatureIn (env.withVerify b) f = signatureIn env f := rfl
  unfold lowerFunction
  rw [hsig]
  rcases hs : signatureIn env f with e | sig
  · rfl
  rcases hb : bodyCode env f sig with e | ⟨code, symbols⟩
  · simp only [bind, Except.bind, bodyCode_withVerify, hb]
  · obtain ⟨full, hr, m, hm⟩ := bodyCode_accepted hb
    simp [bodyCode_withVerify, hb, hr, stackOf, hm, bind, Except.bind, Partial.mapError_ok]

private theorem emitAll_withVerify (fs : List FunDecl) : emitAll (env.withVerify b) fs = emitAll env fs := by
  induction fs with
  | nil => rfl
  | cons f fs ih => simp only [emitAll, emit, lowerFunction_withVerify, ih]

private theorem isLate_emitAll {fs : List FunDecl} {es : List FunctionError} (h : emitAll env fs = .error es) :
    ∀ e ∈ es, e.cause.isLate = false := by
  induction fs generalizing es with
  | nil => cases h
  | cons f fs ih =>
    have hemit : ∀ e, emit env f = .error e → e.cause.isLate = false := fun e he => by
      unfold emit at he
      cases hl : lowerFunction env f with
      | ok m => simp [hl, Partial.mapError_ok] at he
      | error cause =>
        simp only [hl, Partial.mapError_error, Except.error.injEq] at he
        exact he ▸ isLate_lowerFunction hl
    simp only [emitAll] at h
    split at h
    · cases h
    · rename_i hes
      cases h
      exact ih hes
    · rename_i he _
      cases h
      simpa using hemit _ he
    · rename_i he hes
      cases h
      intro e hm
      rcases List.mem_cons.mp hm with rfl | hm
      · exact hemit _ he
      · exact ih hes e hm

end

/-- A failure of a program that finished code alone can have. -/
def ProgramError.isLate : ProgramError → Bool
  | .inFunction e => e.cause.isLate
  | _ => false

section
variable {o : Options} {p : Source.Program}

private theorem collect_causes (env : Env) (fs : List FunDecl) (c : Collected)
    (hc : ∀ e, .inFunction e ∈ c.errors → ∃ x, e.cause = .badType x) :
    ∀ e, .inFunction e ∈ (fs.foldl (collect env) c).errors → ∃ x, e.cause = .badType x := by
  induction fs generalizing c with
  | nil => exact hc
  | cons f fs ih =>
    refine ih _ fun e he => ?_
    unfold collect at he
    split at he
    · rcases List.mem_cons.mp he with he | he
      · cases he
      · exact hc e he
    · dsimp only at he
      split at he
      · rcases List.mem_cons.mp he with he | he
        · cases he
          exact ⟨_, rfl⟩
        · exact hc e he
      · exact hc e he

/-- A function that cannot stand beside the others has a type without a layout. -/
theorem environment_causes {es : List ProgramError} (h : environment o p = .error es) {e : FunctionError}
    (he : .inFunction e ∈ es) : ∃ x, e.cause = .badType x := by
  unfold environment at h
  dsimp only at h
  split at h
  · cases h
  · cases h
    rcases List.mem_append.mp he with he | he
    · exact collect_causes _ _ _ (by simp) e (List.mem_reverse.mp he)
    · unfold entryErrors at he
      split at he
      · cases List.mem_singleton.mp he
      · simp at he

private theorem isLate_environment {es : List ProgramError} (h : environment o p = .error es) :
    ∀ e ∈ es, e.isLate = false := by
  intro e he
  cases e with
  | inFunction e =>
    obtain ⟨x, hx⟩ := environment_causes h he
    rw [ProgramError.isLate, hx]
    rfl
  | duplicateFunction | manyEntries => rfl

private theorem isLate_compile {es : List ProgramError} (h : compile o p = .error es) : ∀ e ∈ es, e.isLate = false := by
  unfold compile at h
  rcases he : environment o p with es' | env
  · simp only [he, bind, Except.bind, Except.error.injEq] at h
    exact h ▸ isLate_environment he
  rcases hm : emitAll env p.functions with es' | ms
  · simp only [he, hm, bind, Except.bind, Partial.mapError_error, Except.error.injEq] at h
    subst h
    intro e hes
    obtain ⟨e', he', rfl⟩ := List.mem_map.mp hes
    exact isLate_emitAll hm e' he'
  · simp [he, hm, bind, Except.bind, Partial.mapError_ok] at h

private theorem compile_withVerify (b : Bool) : compile { o with verify := b } p = compile o p := by
  have henv : environment { o with verify := b } p = (environment o p).map fun env => env.withVerify b := by
    have hc : collect ⟨o.name, p.aliases, [], b⟩ = collect ⟨o.name, p.aliases, [], o.verify⟩ := rfl
    simp only [environment, hc]
    split <;> rfl
  unfold compile
  rw [henv]
  rcases environment o p with es | env
  · rfl
  · simp only [Except.map, bind, Except.bind, emitAll_withVerify]

end

/-- Nothing fails behind lowering. In every environment the lowered code of a function is resolved and accepted, so no
program fails for its labels or depths, and checking the depths changes no result. -/
theorem accepted_behind_lowering (o : Options) (p : Source.Program) :
    (∀ env, environment o p = .ok env → ∀ f ∈ p.functions, ∀ sig code symbols, signatureIn env f = .ok sig →
      bodyCode env f sig = .ok (code, symbols) →
        ∃ full m, resolve code = .ok full ∧ maxDepth full.toArray = .ok m) ∧
    (∀ es, compile o p = .error es → ∀ f loc e g d, .inFunction ⟨f, loc, .badLabel e⟩ ∉ es ∧
      .inFunction ⟨f, loc, .badDepth g d⟩ ∉ es) ∧
    compile { o with verify := true } p = compile { o with verify := false } p := by
  refine ⟨fun env _ f _ sig code symbols _ hb => ?_, fun es he f loc e g d => ⟨fun hm => ?_, fun hm => ?_⟩, ?_⟩
  · obtain ⟨full, hr, m, hm⟩ := bodyCode_accepted hb
    exact ⟨full, m, hr, hm⟩
  · exact absurd (isLate_compile he _ hm) (by simp [ProgramError.isLate, Cause.isLate])
  · exact absurd (isLate_compile he _ hm) (by simp [ProgramError.isLate, Cause.isLate])
  · exact (compile_withVerify true).trans (compile_withVerify false).symm

end WhileStack.Lower
