import Mathlib.Data.List.Perm.Basic
import WhileStack.Proofs.Lower.Environment
import WhileStack.Proofs.Lower.Transfer

/-! Programs compiled under other types, another class or in another order. -/
namespace WhileStack.Lower
open Source (FunDecl Stmt Ty)
open Machine (Code Instr Method Signature)

section
variable {φ : Ty → Ty} {env env' : Env} {f : FunDecl} {sig : Signature} {m : Method}

theorem signatureOf_retype (hl : LayoutsKept φ env.aliases env'.aliases) (h : signatureOf env f = .ok sig) :
    signatureOf env' (f.retype φ) = .ok sig := by
  unfold signatureOf at h ⊢
  obtain ⟨types, htypes, h⟩ := Partial.then_eq_ok.mp h
  obtain ⟨ret, hret, h⟩ := Partial.then_eq_ok.mp h
  have htypes' : (f.retype φ).params.mapM (fun q : String × Ty => valueLayout env'.aliases q.2) = .ok types := by
    refine Machine.mapM_eq_ok.mpr (List.forall₂_map_left_iff.mpr ?_)
    exact (Machine.mapM_eq_ok.mp htypes).imp fun (q : String × Ty) t => hl.valueLayout q.2 t
  exact Partial.then_eq_ok.mpr ⟨types, htypes', Partial.then_eq_ok.mpr ⟨ret, hl.layout _ _ hret, h⟩⟩

private theorem declareParams_retype {a b : String} {seen : List String} {ps : List (String × Machine.Ty)} {s s' : Symbols}
    (hs : s.Valid) (h : declareParams f seen ps s = .ok s') :
    declareParams (f.retype φ) seen ps (s.reclass a b) = .ok (s'.reclass a b) := by
  induction ps generalizing seen s with
  | nil =>
    cases h
    rfl
  | cons p ps ih =>
    obtain ⟨n, t⟩ := p
    simp only [declareParams] at h ⊢
    split at h
    · cases h
    · rename_i hseen
      split at h
      · cases h
      · rename_i l s₁ hd
        rw [if_neg hseen, Symbols.declare_reclass hs.reserved hd]
        exact ih (hs.declare hd) h

/-- The first slot is the one in front of the parameters. -/
private theorem initialSymbols_eq : initialSymbols env f sig =
    declareParams f [] ((f.params.map Prod.fst).zip (sig.params.drop (sig.params.length - f.params.length)))
      ⟨[], [], [⟨(implicitSlot env f).1, 0, (implicitSlot env f).2⟩]⟩ := by
  unfold initialSymbols implicitSlot
  cases f.isEntry <;> rfl

private theorem initialSymbols_retype {s : Symbols} (h : initialSymbols env f sig = .ok s) :
    initialSymbols env' (f.retype φ) sig = .ok (s.reclass env.cls env'.cls) := by
  have hfirst : (⟨[], [], [⟨(implicitSlot env' (f.retype φ)).1, 0, (implicitSlot env' (f.retype φ)).2⟩]⟩ : Symbols) =
      Symbols.reclass env.cls env'.cls ⟨[], [], [⟨(implicitSlot env f).1, 0, (implicitSlot env f).2⟩]⟩ := by
    unfold implicitSlot
    rw [show (f.retype φ).isEntry = f.isEntry from rfl]
    split <;> simp [Symbols.reclass, Machine.Local.reclass, Machine.Ty.reclass, Machine.Ty.args, Env.receiver]
  rw [initialSymbols_eq] at h ⊢
  rw [hfirst]
  simpa [FunDecl.retype, Function.comp_def] using declareParams_retype (reserved_valid _) h

theorem bodyCode_retype (he : env.Answers φ env') {code : Code} {s : Symbols} (h : bodyCode env f sig = .ok (code, s)) :
    bodyCode env' (f.retype φ) sig = .ok (reclass env.cls env'.cls code, s.reclass env.cls env'.cls) := by
  unfold bodyCode at h ⊢
  obtain ⟨s₀, hs₀, h⟩ := Partial.then_eq_ok.mp h
  obtain ⟨⟨b, s₁⟩, hb, h⟩ := Partial.then_eq_ok.mp h
  cases h
  have hh : Host.Answers φ ⟨env, f.name, sig⟩ ⟨env', f.name, sig⟩ := ⟨he, rfl, rfl⟩
  obtain ⟨hb', -⟩ := carries_inScope (carries_blockCode hh f.body) ⟨0, s₀⟩ b s₁ (initialSymbols_valid hs₀) hb
  have hclosing : closing (f.retype φ) sig = (closing f sig).map (Instr.reclass env.cls env'.cls) := by
    simp only [closing, FunDecl.retype, Stmt.allReturn_retypeAll]
    split <;> (try split) <;> rfl
  refine Partial.then_eq_ok.mpr ⟨_, initialSymbols_retype hs₀, Partial.then_eq_ok.mpr ⟨_, hb', ?_⟩⟩
  simp [hclosing, reclass, State.reclass]

private theorem signatureIn_retype (he : env.Answers φ env') (h : signatureIn env f = .ok sig) :
    signatureIn env' (f.retype φ) = .ok sig := by
  unfold signatureIn at h ⊢
  rw [show (f.retype φ).name = f.name from rfl, he.signatures]
  split at h
  · exact h
  · cases hs : signatureOf env f with
    | error e => simp [hs] at h
    | ok sig' =>
      rw [hs] at h
      cases h
      rw [signatureOf_retype he.layouts hs]
      rfl

/-- What a function is lowered to depends on the answers of the environment only. -/
theorem emit_retype (he : env.Answers φ env') (h : emit env f = .ok m) :
    emit env' (f.retype φ) = .ok (m.reclass env.cls env'.cls) := by
  have hm := Partial.mapError_eq_ok.mp h
  refine Partial.mapError_eq_ok.mpr ?_
  unfold lowerFunction at hm ⊢
  obtain ⟨sig, hsig, hm⟩ := Partial.then_eq_ok.mp hm
  obtain ⟨⟨code, symbols⟩, hbody, hm⟩ := Partial.then_eq_ok.mp hm
  obtain ⟨full, hfull, n, hn⟩ := bodyCode_accepted hbody
  simp only [hfull, stackOf, hn, Partial.mapError_ok, Partial.ok_then] at hm
  cases hm
  have hn' : Machine.maxDepth (full.map (Instr.reclass env.cls env'.cls)).toArray = .ok n := by
    simpa using Machine.maxDepth_reclass (a := env.cls) (b := env'.cls) hn
  simp only [signatureIn_retype he hsig, bodyCode_retype he hbody, Machine.resolve_reclass hfull, stackOf, hn',
    Partial.mapError_ok, Partial.ok_then, Method.reclass, Symbols.size_reclass, Symbols.locals_reclass, List.map_toArray]
  rfl

end

section
variable {φ : Ty → Ty} {o : Options} {p p' : Source.Program} {env : Env}

/-- The functions of one program are those of the other with their types replaced, in any order. -/
structure Retyped (φ : Ty → Ty) (p p' : Source.Program) : Prop where
  functions : p'.functions.Perm (p.functions.map (FunDecl.retype φ))
  layouts : LayoutsKept φ p.aliases p'.aliases

theorem map_retype_id (fs : List FunDecl) : fs.map (FunDecl.retype fun t => t) = fs := by
  rw [show FunDecl.retype (fun t => t) = id from funext FunDecl.retype_id, List.map_id]

theorem Retyped.refl (p : Source.Program) : Retyped (fun t => t) p p :=
  ⟨by rw [map_retype_id], fun _ _ h => h, fun _ _ h => h⟩

theorem Retyped.consistent (hp : Retyped φ p p') (h : Consistent p) : Consistent p' := by
  have hof (f' : FunDecl) (hf : f' ∈ p'.functions) : ∃ f ∈ p.functions, f.retype φ = f' :=
    List.mem_map.mp (hp.functions.mem_iff.mp hf)
  refine ⟨?_, ?_, fun f' hf q hq => ?_, fun f' hf => ?_⟩
  · rw [(hp.functions.map FunDecl.name).nodup_iff, List.map_map]
    exact h.distinct
  · rw [(hp.functions.filter FunDecl.isEntry).length_eq, List.filter_map, List.length_map]
    exact h.one_entry
  · obtain ⟨f, hmem, rfl⟩ := hof f' hf
    obtain ⟨r, hr, rfl⟩ := List.mem_map.mp hq
    obtain ⟨t, ht⟩ := h.params f hmem r hr
    exact ⟨t, hp.layouts.valueLayout _ _ ht⟩
  · obtain ⟨f, hmem, rfl⟩ := hof f' hf
    obtain ⟨t, ht⟩ := h.result f hmem
    exact ⟨t, hp.layouts.layout _ _ ht⟩

/-- The environment of one program answers as that of the other. -/
theorem Retyped.environment (hp : Retyped φ p p') (h : environment o p = .ok env) (o' : Options) :
    ∃ env', environment o' p' = .ok env' ∧ env.Answers φ env' := by
  obtain ⟨env', h'⟩ := environment_isOk.mpr (hp.consistent (environment_isOk.mp ⟨env, h⟩))
  obtain ⟨haliases, hsig, -⟩ := environment_eq_ok h
  have hl : LayoutsKept φ env.aliases env'.aliases := by
    rw [haliases, (environment_eq_ok h').1]
    exact hp.layouts
  refine ⟨env', h', hl, fun name => Option.ext fun sig => ?_⟩
  rw [environment_lookup h, environment_lookup h']
  constructor
  · rintro ⟨f', hf', rfl, hs⟩
    obtain ⟨f, hf, rfl⟩ := List.mem_map.mp (hp.functions.mem_iff.mp hf')
    obtain ⟨sig', hs', -⟩ := hsig f hf
    cases hs.symm.trans (signatureOf_retype hl hs')
    exact ⟨f, hf, rfl, hs'⟩
  · rintro ⟨f, hf, rfl, hs⟩
    exact ⟨f.retype φ, hp.functions.mem_iff.mpr (List.mem_map_of_mem hf), rfl, signatureOf_retype hl hs⟩

/-- One program is compiled if the other one is, to the same methods but for the name of the class. They come in the
order of the functions. -/
theorem Retyped.compile {c : Machine.Program} (hp : Retyped φ p p') (h : compile o p = .ok c) (o' : Options) :
    ∃ c', compile o' p' = .ok c' ∧ c'.methods.Perm (c.methods.map (Method.reclass o.name o'.name)) ∧
      (p'.functions = p.functions.map (FunDecl.retype φ) → c'.methods = c.methods.map (Method.reclass o.name o'.name)) := by
  obtain ⟨env, he, hm, -⟩ := compile_eq_ok_iff.mp h
  obtain ⟨env', he', ha⟩ := hp.environment he o'
  have hm' : List.Forall₂ (fun f m => emit env' f = .ok m) (p.functions.map (FunDecl.retype φ))
      (c.methods.map (Method.reclass o.name o'.name)) := by
    rw [← environment_cls he, ← environment_cls he']
    exact List.forall₂_map_left_iff.mpr (List.forall₂_map_right_iff.mpr (hm.imp fun f m => emit_retype ha))
  obtain ⟨methods, hmethods, hperm⟩ := List.perm_comp_forall₂ hp.functions hm'
  refine ⟨⟨o'.name, o'.version, methods⟩, compile_eq_ok_iff.mpr ⟨env', he', hmethods, rfl, rfl⟩, hperm, fun hf => ?_⟩
  rw [hf] at hmethods
  have hunique : Relator.RightUnique fun f m => emit env' f = .ok m := fun _ _ _ h h' => Except.ok.inj (h.symm.trans h')
  exact hunique.forall₂ hmethods hm'

end

end WhileStack.Lower
