import WhileStack.Proofs.Lower.Accepted

/-! What a compiled program consists of: one method for each function, in the same order, and one signature under each
name. -/
namespace WhileStack.Lower
open Source (FunDecl)
open Machine (Signature Method Code Placed)

/-- The code of a function that the method of a program has. -/
structure Implements (env : Env) (f : FunDecl) (sig : Signature) (m : Method) : Prop where
  name_eq : m.name = f.name
  sig_eq : m.sig = sig
  entry_eq : m.isEntry = f.isEntry
  code : ∃ index s₀ b s, initialSymbols env f sig = .ok s₀ ∧ LowersBlock ⟨env, f.name, sig⟩ ⟨0, s₀.enter⟩ f.body b s ∧
    m.maxLocals = s.symbols.size ∧ Placed index m.code 0 (b ++ closing f sig)
  lowered : ∃ code symbols full, bodyCode env f sig = .ok (code, symbols) ∧ Machine.resolve code = .ok full ∧
    m.code = full.toArray

/-- A program with a method for each function, under the signature that calls of the function use. -/
structure Compiled (env : Env) (p : Source.Program) (c : Machine.Program) : Prop where
  aliases_eq : env.aliases = p.aliases
  declared : ∀ name sig, env.signatures.lookup name = some sig → ∃ f ∈ p.functions, f.name = name
  methods : List.Forall₂ (fun f m => ∃ sig, signatureOf env f = .ok sig ∧ env.signatures.lookup f.name = some sig ∧
    Implements env f sig m) p.functions c.methods

section
variable {env : Env} {c : Collected} {f : FunDecl} {fs : List FunDecl} {name : String} {sig : Signature}

private theorem collect_ok (h : (collect env c f).errors = []) :
    c.errors = [] ∧ c.signatures.lookup f.name = none ∧ ∃ sig, signatureOf env f = .ok sig ∧
      (collect env c f).signatures = (f.name, sig) :: c.signatures := by
  unfold collect at h ⊢
  cases hl : c.signatures.lookup f.name with
  | some sig => simp [hl] at h
  | none =>
    cases hs : signatureOf env f with
    | error e => simp [hl, hs] at h
    | ok sig =>
      simp only [hl, hs, Option.isSome_none, Bool.false_eq_true, if_false] at h ⊢
      exact ⟨h, trivial, sig, rfl, rfl⟩

/-- Signatures are only added, one for each function. -/
private theorem foldl_collect (h : (fs.foldl (collect env) c).errors = []) :
    c.errors = [] ∧
      (∀ f ∈ fs, ∃ sig, signatureOf env f = .ok sig ∧ (fs.foldl (collect env) c).signatures.lookup f.name = some sig) ∧
      (∀ name sig, c.signatures.lookup name = some sig → (fs.foldl (collect env) c).signatures.lookup name = some sig) ∧
      ∀ name sig, (fs.foldl (collect env) c).signatures.lookup name = some sig →
        c.signatures.lookup name = some sig ∨ ∃ f ∈ fs, f.name = name := by
  induction fs generalizing c with
  | nil => exact ⟨h, by simp, fun _ _ h => h, fun _ _ h => .inl h⟩
  | cons f fs ih =>
    rw [List.foldl_cons] at h ⊢
    obtain ⟨he, hsig, hkeep, hfrom⟩ := ih h
    obtain ⟨he', hnone, sig, hs, hadd⟩ := collect_ok he
    rw [hadd] at hkeep hfrom
    refine ⟨he', fun g hg => ?_, fun name s hl => ?_, fun name s hl => ?_⟩
    · rcases List.mem_cons.mp hg with rfl | hg
      · exact ⟨sig, hs, hkeep g.name sig (by simp)⟩
      · exact hsig g hg
    · refine hkeep name s ?_
      have hne : name ≠ f.name := by
        rintro rfl
        rw [hnone] at hl
        cases hl
      rwa [List.lookup_cons, beq_false_of_ne hne]
    · rcases hfrom name s hl with hl | ⟨g, hg, rfl⟩
      · by_cases hne : name = f.name
        · exact .inr ⟨f, by simp, hne.symm⟩
        · rw [List.lookup_cons, beq_false_of_ne hne] at hl
          exact .inl hl
      · exact .inr ⟨g, by simp [hg], rfl⟩

private theorem emitAll_ok {ms : List Method} (h : emitAll env fs = .ok ms) :
    List.Forall₂ (fun f m => lowerFunction env f = .ok m) fs ms := by
  induction fs generalizing ms with
  | nil =>
    cases h
    exact .nil
  | cons f fs ih =>
    simp only [emitAll] at h
    split at h
    · rename_i hm hms
      cases h
      refine .cons ?_ (ih hms)
      unfold emit at hm
      cases hl : lowerFunction env f with
      | error e => simp [hl, Except.mapError] at hm
      | ok m =>
        simp only [hl, Except.mapError, Except.ok.injEq] at hm
        rw [hm]
    all_goals cases h

end

section
variable {env : Env} {f : FunDecl} {sig : Signature} {m : Method}

private theorem lowerFunction_eq_ok (hs : env.signatures.lookup f.name = some sig) (h : lowerFunction env f = .ok m) :
    ∃ code symbols full stack, bodyCode env f sig = .ok (code, symbols) ∧ Machine.resolve code = .ok full ∧
      m = ⟨f.name, sig, f.isEntry, full.toArray, symbols.locals, stack, symbols.size⟩ := by
  have hsig : signatureIn env f = .ok sig := by rw [signatureIn, hs]
  unfold lowerFunction at h
  rcases hb : bodyCode env f sig with e | ⟨code, symbols⟩
  · simp [hsig, hb, bind, Except.bind] at h
  obtain ⟨full, hr, n, hn⟩ := bodyCode_accepted hb
  simp only [hsig, hb, hr, stackOf, hn, bind, Except.bind, Except.mapError, Except.ok.injEq] at h
  exact ⟨code, symbols, full, n, rfl, hr, h.symm⟩

private theorem lowerFunction_implements (hs : env.signatures.lookup f.name = some sig)
    (h : lowerFunction env f = .ok m) : Implements env f sig m := by
  obtain ⟨code, symbols, full, stack, hb, hr, rfl⟩ := lowerFunction_eq_ok hs h
  obtain ⟨s₀, b, s, hs₀, hblock, rfl, rfl⟩ := bodyCode_eq_ok hb
  have hl := lowersBlock f.body hblock
  obtain ⟨index, -, hp⟩ := Machine.resolve_placed hr
  exact ⟨rfl, rfl, rfl, ⟨index, s₀, b, s, hs₀, hl, hl.grows.exit_eq.2.2, hp⟩, _, _, full, hb, hr, rfl⟩

end

/-- The signatures of an environment are those of the functions, under their names. -/
theorem environment_eq_ok {o : Options} {p : Source.Program} {env : Env} (h : environment o p = .ok env) :
    env.aliases = p.aliases ∧
      (∀ f ∈ p.functions, ∃ sig, signatureOf env f = .ok sig ∧ env.signatures.lookup f.name = some sig) ∧
      ∀ name sig, env.signatures.lookup name = some sig → ∃ f ∈ p.functions, f.name = name := by
  unfold environment at h
  dsimp only at h
  split at h
  · rename_i hempty
    cases h
    have hnil := List.append_eq_nil_iff.mp (List.isEmpty_iff.mp hempty)
    obtain ⟨-, hsig, -, hfrom⟩ := foldl_collect (List.reverse_eq_nil_iff.mp hnil.1)
    refine ⟨rfl, hsig, fun name sig hl => ?_⟩
    rcases hfrom name sig hl with hl | hl
    · cases hl
    · exact hl
  · cases h

theorem environment_cls {o : Options} {p : Source.Program} {env : Env} (h : environment o p = .ok env) :
    env.cls = o.name := by
  unfold environment at h
  dsimp only at h
  split at h
  · cases h
    rfl
  · cases h

private theorem compile_lowers {o : Options} {p : Source.Program} {c : Machine.Program} (h : compile o p = .ok c) :
    ∃ env, environment o p = .ok env ∧ List.Forall₂ (fun f m => (∃ sig, signatureOf env f = .ok sig ∧
      env.signatures.lookup f.name = some sig) ∧ lowerFunction env f = .ok m) p.functions c.methods := by
  unfold compile at h
  cases he : environment o p with
  | error es => simp [he, bind, Except.bind] at h
  | ok env =>
    cases hm : emitAll env p.functions with
    | error es => simp [he, hm, bind, Except.bind, Except.mapError] at h
    | ok ms =>
      simp only [he, hm, bind, Except.bind, Except.mapError, Except.ok.injEq] at h
      subst h
      obtain ⟨-, hsig, -⟩ := environment_eq_ok he
      exact ⟨env, rfl, (List.forall₂_and_left _ _).mpr ⟨hsig, emitAll_ok hm⟩⟩

theorem compile_eq_ok {o : Options} {p : Source.Program} {c : Machine.Program} (h : compile o p = .ok c) :
    ∃ env, environment o p = .ok env ∧ Compiled env p c := by
  obtain ⟨env, he, hm⟩ := compile_lowers h
  obtain ⟨ha, -, hdecl⟩ := environment_eq_ok he
  refine ⟨env, he, ha, hdecl, hm.imp ?_⟩
  rintro f m ⟨⟨sig, hs, hl⟩, hm⟩
  exact ⟨sig, hs, hl, lowerFunction_implements hl hm⟩

/-- The method of a function, with the code before its labels are resolved and the slots it uses. -/
structure Emitted (env : Env) (f : FunDecl) (m : Method) (sig : Signature) (code : Code) (symbols : Symbols) : Prop where
  sig_eq : signatureOf env f = .ok sig
  entry_eq : m.isEntry = f.isEntry
  body : bodyCode env f sig = .ok (code, symbols)
  resolved : ∃ full, Machine.resolve code = .ok full ∧ m.code = full.toArray
  locals_eq : m.locals = symbols.locals
  maxLocals_eq : m.maxLocals = symbols.size

theorem compile_emits {o : Options} {p : Source.Program} {c : Machine.Program} (h : compile o p = .ok c) :
    ∃ env, env.cls = o.name ∧ env.aliases = p.aliases ∧
      List.Forall₂ (fun f m => ∃ sig code symbols, Emitted env f m sig code symbols) p.functions c.methods := by
  obtain ⟨env, he, hm⟩ := compile_lowers h
  refine ⟨env, environment_cls he, (environment_eq_ok he).1, hm.imp ?_⟩
  rintro f m ⟨⟨sig, hs, hl⟩, hm⟩
  obtain ⟨code, symbols, full, stack, hb, hr, rfl⟩ := lowerFunction_eq_ok hl hm
  exact ⟨sig, code, symbols, hs, rfl, hb, ⟨full, hr, rfl⟩, rfl, rfl⟩

/-- The parts of a signature. Parameters are values; the argument vector comes before those of the entry point. -/
theorem signatureOf_eq_ok {env : Env} {f : FunDecl} {sig : Signature} (h : signatureOf env f = .ok sig) :
    ∃ types, List.Forall₂ (fun p t => valueLayout env.aliases p.2 = .ok t) f.params types ∧
      layout env.aliases f.ret = .ok sig.ret ∧ sig.params = (if f.isEntry then [Machine.Ty.args] else []) ++ types ∧
      sig.isStatic = f.isEntry ∧ sig.name = f.name := by
  unfold signatureOf at h
  rcases hp : f.params.mapM (fun p => valueLayout env.aliases p.2) with e | types
  · simp [hp, bind, Except.bind] at h
  rcases hr : layout env.aliases f.ret with e | ret
  · simp [hp, hr, bind, Except.bind] at h
  simp only [hp, hr, bind, Except.bind, Except.ok.injEq] at h
  subst h
  exact ⟨types, Machine.mapM_eq_ok.mp hp, rfl, rfl, rfl, rfl⟩

/-- What is looked for by matching conditions is found in matching places. -/
private theorem find?_forall₂ {α β : Type} {R : α → β → Prop} {P : α → Bool} {Q : β → Bool} {xs : List α} {ys : List β}
    (h : List.Forall₂ R xs ys) (hpq : ∀ x y, R x y → P x = Q y) :
    (xs.find? P = none ∧ ys.find? Q = none) ∨ ∃ x y, xs.find? P = some x ∧ ys.find? Q = some y ∧ x ∈ xs ∧ R x y := by
  induction h with
  | nil => exact .inl ⟨rfl, rfl⟩
  | @cons x y xs ys hr _ ih =>
    have he := hpq x y hr
    cases hq : Q y with
    | true => exact .inr ⟨x, y, by simp [he, hq], by simp [hq], by simp, hr⟩
    | false =>
      rcases ih with ⟨h₁, h₂⟩ | ⟨x', y', h₁, h₂, hm, hr'⟩
      · exact .inl ⟨by simp [he, hq, h₁], by simp [hq, h₂]⟩
      · exact .inr ⟨x', y', by simp [he, hq, h₁], by simp [hq, h₂], by simp [hm], hr'⟩

namespace Compiled
variable {env : Env} {p : Source.Program} {c : Machine.Program} {sig : Signature} {name : String}

/-- A function that can be called has a method of its signature. -/
theorem method (h : Compiled env p c) (hs : env.signatures.lookup name = some sig) :
    ∃ f m, p.function? name = some f ∧ c.method? sig.name = some m ∧ signatureOf env f = .ok sig ∧
      Implements env f sig m := by
  rcases find?_forall₂ (P := fun f => f.name = name) (Q := fun m => m.name = name) h.methods
    (by rintro f m ⟨_, _, _, hi⟩; rw [hi.name_eq]) with ⟨hn, -⟩ | ⟨f, m, hf, hm, -, sig', hsig, hl, hi⟩
  · obtain ⟨f, hf, hname⟩ := h.declared name sig hs
    simpa [hname] using List.find?_eq_none.mp hn f hf
  · have hname : f.name = name := by simpa using List.find?_some hf
    rw [hname] at hl
    cases hl.symm.trans hs
    obtain ⟨-, -, -, -, -, hn⟩ := signatureOf_eq_ok hsig
    exact ⟨f, m, hf, by rw [hn, hname]; exact hm, hsig, hi⟩

theorem entry (h : Compiled env p c) : (p.entry? = none ∧ c.entry? = none) ∨
    ∃ f m sig, p.entry? = some f ∧ c.entry? = some m ∧ signatureOf env f = .ok sig ∧ Implements env f sig m := by
  rcases find?_forall₂ h.methods (by rintro f m ⟨_, _, _, hi⟩; exact hi.entry_eq.symm) with
    h | ⟨f, m, hf, hm, -, sig, hsig, -, hi⟩
  · exact .inl h
  · exact .inr ⟨f, m, sig, hf, hm, hsig, hi⟩

end Compiled

end WhileStack.Lower
