import WhileStack.Proofs.Lower.Compiled

/-! When a program is compiled. There is an environment if the functions can stand beside each other; the methods are
those of the single functions, and what fails is reported for each. -/
namespace WhileStack.Lower
open Source (FunDecl)
open Machine (Signature Method)

/-- Functions that can stand beside each other: no two share a name, one at most is the entry point, and all types of
their signatures have layouts. -/
structure Consistent (p : Source.Program) : Prop where
  distinct : (p.functions.map FunDecl.name).Nodup
  one_entry : (p.functions.filter FunDecl.isEntry).length ≤ 1
  params : ∀ f ∈ p.functions, ∀ q ∈ f.params, ∃ t, valueLayout p.aliases q.2 = .ok t
  result : ∀ f ∈ p.functions, ∃ t, layout p.aliases f.ret = .ok t

section
variable {env : Env} {f : FunDecl} {fs : List FunDecl} {c : Collected} {ms : List Method}

private theorem mapM_isOk {α β ε : Type} {g : α → Except ε β} {xs : List α} (h : ∀ x ∈ xs, ∃ y, g x = .ok y) :
    ∃ ys, xs.mapM g = .ok ys := by
  induction xs with
  | nil => exact ⟨[], rfl⟩
  | cons x xs ih =>
    obtain ⟨y, hy⟩ := h x (by simp)
    obtain ⟨ys, hys⟩ := ih fun x hx => h x (by simp [hx])
    exact ⟨y :: ys, Machine.mapM_eq_ok.mpr (.cons hy (Machine.mapM_eq_ok.mp hys))⟩

theorem signatureOf_isOk : (∃ sig, signatureOf env f = .ok sig) ↔
    (∀ q ∈ f.params, ∃ t, valueLayout env.aliases q.2 = .ok t) ∧ ∃ t, layout env.aliases f.ret = .ok t := by
  constructor
  · rintro ⟨sig, h⟩
    obtain ⟨types, htypes, hret, -⟩ := signatureOf_eq_ok h
    refine ⟨fun q hq => ?_, _, hret⟩
    obtain ⟨t, -, ht⟩ := Machine.exists_of_forall₂ htypes hq
    exact ⟨t, ht⟩
  · rintro ⟨hp, ret, hr⟩
    obtain ⟨types, ht⟩ := mapM_isOk hp
    exact ⟨⟨f.name, (if f.isEntry then [Machine.Ty.args] else []) ++ types, ret, f.isEntry⟩,
      by simp only [signatureOf, ht, hr, bind, Except.bind]⟩

/-- A function is collected without a failure if its name is free and its types have layouts. -/
private theorem collect_errors : (collect env c f).errors = [] ↔
    c.errors = [] ∧ c.signatures.lookup f.name = none ∧ ∃ sig, signatureOf env f = .ok sig := by
  unfold collect
  cases hl : c.signatures.lookup f.name with
  | some sig => simp
  | none => cases hs : signatureOf env f <;> simp

private theorem collect_lookup (h : (collect env c f).errors = []) (name : String) :
    (collect env c f).signatures.lookup name = none ↔ name ≠ f.name ∧ c.signatures.lookup name = none := by
  obtain ⟨-, hl, sig, hs⟩ := collect_errors.mp h
  simp only [collect, hl, hs, Option.isSome_none, Bool.false_eq_true, if_false]
  by_cases hn : name = f.name
  · simp [hn]
  · simp [List.lookup_cons, beq_false_of_ne hn, hn]

private theorem foldl_collect_errors : (fs.foldl (collect env) c).errors = [] ↔
    c.errors = [] ∧ (fs.map FunDecl.name).Nodup ∧ (∀ f ∈ fs, c.signatures.lookup f.name = none) ∧
      ∀ f ∈ fs, ∃ sig, signatureOf env f = .ok sig := by
  induction fs generalizing c with
  | nil => simp
  | cons f fs ih =>
    rw [List.foldl_cons, ih]
    constructor
    · rintro ⟨he, hn, hl, hs⟩
      obtain ⟨hc, hf, hsig⟩ := collect_errors.mp he
      have hl' := fun g hg => (collect_lookup he _).mp (hl g hg)
      refine ⟨hc, List.nodup_cons.mpr ⟨fun hm => ?_, hn⟩, ?_, ?_⟩
      · obtain ⟨g, hg, hname⟩ := List.mem_map.mp hm
        exact (hl' g hg).1 hname
      · exact List.forall_mem_cons.mpr ⟨hf, fun g hg => (hl' g hg).2⟩
      · exact List.forall_mem_cons.mpr ⟨hsig, hs⟩
    · rintro ⟨hc, hn, hl, hs⟩
      obtain ⟨hf, hn⟩ := List.nodup_cons.mp hn
      have he := collect_errors.mpr ⟨hc, hl f (by simp), hs f (by simp)⟩
      refine ⟨he, hn, fun g hg => (collect_lookup he _).mpr ⟨fun hname => ?_, hl g (by simp [hg])⟩,
        fun g hg => hs g (by simp [hg])⟩
      exact hf (List.mem_map.mpr ⟨g, hg, hname⟩)

/-- Where nothing fails, every entry point is counted. -/
private theorem foldl_collect_entries (h : (fs.foldl (collect env) c).errors = []) :
    (fs.foldl (collect env) c).entries.length = c.entries.length + (fs.filter FunDecl.isEntry).length := by
  induction fs generalizing c with
  | nil => rfl
  | cons f fs ih =>
    rw [List.foldl_cons] at h ⊢
    rw [ih h]
    obtain ⟨-, hl, sig, hs⟩ := collect_errors.mp (foldl_collect_errors.mp h).1
    simp only [collect, hl, hs, Option.isSome_none, Bool.false_eq_true, if_false]
    cases hf : f.isEntry
    · simp [hf]
    · simp [hf]
      omega

theorem environment_isOk {o : Options} {p : Source.Program} : (∃ env, environment o p = .ok env) ↔ Consistent p := by
  let bare : Env := ⟨o.name, p.aliases, [], o.verify⟩
  have hall : (p.functions.foldl (collect bare) ⟨[], [], []⟩).errors = [] ↔ _ := foldl_collect_errors
  have hent (h : (p.functions.foldl (collect bare) ⟨[], [], []⟩).errors = []) := foldl_collect_entries h
  have hok : (∃ env, environment o p = .ok env) ↔ (p.functions.foldl (collect bare) ⟨[], [], []⟩).errors = [] ∧
      (p.functions.foldl (collect bare) ⟨[], [], []⟩).entries.length ≤ 1 := by
    simp only [environment, entryErrors]
    by_cases he : 1 < (p.functions.foldl (collect bare) ⟨[], [], []⟩).entries.length
    · simp [bare, he]
    · by_cases hc : (p.functions.foldl (collect bare) ⟨[], [], []⟩).errors = []
      · simp [bare, he, hc, Nat.le_of_not_lt he]
      · simp [bare, he, hc]
  rw [hok]
  constructor
  · rintro ⟨he, hle⟩
    obtain ⟨-, hn, -, hs⟩ := hall.mp he
    rw [hent he] at hle
    exact ⟨hn, by simpa using hle, fun f hf => (signatureOf_isOk.mp (hs f hf)).1,
      fun f hf => (signatureOf_isOk.mp (hs f hf)).2⟩
  · rintro ⟨hn, hle, hp, hr⟩
    have he := hall.mpr ⟨rfl, hn, fun _ _ => rfl, fun f hf => signatureOf_isOk.mpr ⟨hp f hf, hr f hf⟩⟩
    exact ⟨he, by rw [hent he]; simpa using hle⟩

/-- A name stands for the signature of the function that has it. -/
theorem environment_lookup {o : Options} {p : Source.Program} (h : environment o p = .ok env) {name : String}
    {sig : Signature} : env.signatures.lookup name = some sig ↔
      ∃ f ∈ p.functions, f.name = name ∧ signatureOf env f = .ok sig := by
  obtain ⟨-, hsig, hfrom⟩ := environment_eq_ok h
  constructor
  · intro hl
    obtain ⟨f, hf, rfl⟩ := hfrom name sig hl
    obtain ⟨sig', hs, hl'⟩ := hsig f hf
    cases hl.symm.trans hl'
    exact ⟨f, hf, rfl, hs⟩
  · rintro ⟨f, hf, rfl, hs⟩
    obtain ⟨sig', hs', hl⟩ := hsig f hf
    cases hs.symm.trans hs'
    exact hl

theorem emitAll_eq_ok : emitAll env fs = .ok ms ↔ List.Forall₂ (fun f m => emit env f = .ok m) fs ms := by
  induction fs generalizing ms with
  | nil => simp [emitAll, eq_comm]
  | cons f fs ih =>
    simp only [emitAll, List.forall₂_cons_left_iff]
    cases hf : emit env f with
    | error e => cases hfs : emitAll env fs <;> simp
    | ok m =>
      cases hfs : emitAll env fs with
      | error es => simp [← ih, hfs]
      | ok ms' =>
        simp only [← ih, hfs, Except.ok.injEq]
        constructor
        · rintro rfl
          exact ⟨m, ms', rfl, rfl, rfl⟩
        · rintro ⟨_, _, rfl, rfl, rfl⟩
          rfl

/-- What is wrong with a function, if anything is. -/
def failure (env : Env) (f : FunDecl) : Option FunctionError :=
  match emit env f with
  | .ok _ => none
  | .error e => some e

theorem failure_eq_none : failure env f = none ↔ ∃ m, emit env f = .ok m := by
  unfold failure
  cases emit env f <;> simp

/-- A failure names its function and the place of it. -/
theorem failure_eq_some {e : FunctionError} (h : failure env f = some e) :
    e.function = f.name ∧ e.loc = f.loc ∧ lowerFunction env f = .error e.cause := by
  unfold failure emit at h
  cases hl : lowerFunction env f with
  | ok m => simp [hl] at h
  | error cause =>
    simp only [hl, Partial.mapError_error, Option.some.injEq] at h
    subst h
    exact ⟨rfl, rfl, rfl⟩

theorem emitAll_eq_error {es : List FunctionError} (h : emitAll env fs = .error es) : es = fs.filterMap (failure env) := by
  induction fs generalizing es with
  | nil => cases h
  | cons f fs ih =>
    have hnone {ms : List Method} (hms : emitAll env fs = .ok ms) : fs.filterMap (failure env) = [] := by
      refine List.filterMap_eq_nil_iff.mpr fun g hg => failure_eq_none.mpr ?_
      obtain ⟨m, -, hm⟩ := Machine.exists_of_forall₂ (emitAll_eq_ok.mp hms) hg
      exact ⟨m, hm⟩
    simp only [emitAll] at h
    rw [List.filterMap_cons]
    cases hf : emit env f with
    | ok m =>
      cases hfs : emitAll env fs with
      | ok ms => simp [hf, hfs] at h
      | error es' =>
        simp only [hf, hfs, Except.error.injEq] at h
        simp [failure, hf, ← h, ih hfs]
    | error e =>
      cases hfs : emitAll env fs with
      | ok ms =>
        simp only [hf, hfs, Except.error.injEq] at h
        simp [failure, hf, ← h]
        simpa [failure] using hnone hfs
      | error es' =>
        simp only [hf, hfs, Except.error.injEq] at h
        simp [failure, hf, ← h, ih hfs]

/-- Where there is an environment, a program fails for its functions alone. -/
theorem compile_eq_error {o : Options} {p : Source.Program} {es : List ProgramError} (he : environment o p = .ok env)
    (h : compile o p = .error es) : es = (p.functions.filterMap (failure env)).map .inFunction := by
  simp only [compile, he, Partial.ok_then] at h
  cases hm : emitAll env p.functions with
  | ok ms => simp [hm, Partial.ok_then] at h
  | error fs =>
    rw [← emitAll_eq_error hm]
    simpa [hm, bind, Except.bind, eq_comm] using h

/-- A compiled program has the methods of its functions, one after the other. -/
theorem compile_eq_ok_iff {o : Options} {p : Source.Program} {c : Machine.Program} : compile o p = .ok c ↔
    ∃ env, environment o p = .ok env ∧ List.Forall₂ (fun f m => emit env f = .ok m) p.functions c.methods ∧
      c.name = o.name ∧ c.version = o.version := by
  obtain ⟨name, version, methods⟩ := c
  unfold compile
  cases environment o p with
  | error es => simp [bind, Except.bind]
  | ok env =>
    simp only [bind, Except.bind, Except.ok.injEq, exists_eq_left', ← emitAll_eq_ok]
    cases emitAll env p.functions <;> simp [eq_comm, and_assoc, and_comm]

end

end WhileStack.Lower
