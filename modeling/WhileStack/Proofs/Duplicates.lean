import WhileStack.Proofs.Lower.Environment

/-! Names that several functions of a program have. A function is reported as a duplicate if one of its name stands
before it whose types have layouts; one without a layout is passed over. So every duplicate is reported, each once and
in the order of the text, exactly where no function has only such ones of its name before it. -/
namespace WhileStack.Lower
open Source (FunDecl Aliases Loc)

/-- What the functions of a program are refused for as they are put beside each other. -/
def environmentErrors (o : Options) (p : Source.Program) : List ProgramError :=
  match environment o p with
  | .ok _ => []
  | .error es => es

/-- The function that an error says is a duplicate, by its name and place. -/
def ProgramError.duplicate? : ProgramError → Option (String × Loc)
  | .duplicateFunction name loc => some (name, loc)
  | .manyEntries _ | .inFunction _ => none

/-- The parameters and the result of a function have layouts. -/
def hasLayouts (aliases : Aliases) (f : FunDecl) : Bool :=
  f.params.all (fun q => (valueLayout aliases q.2).isOk) && (layout aliases f.ret).isOk

/-- The functions that have one of their name before them for which `P` holds, given those before the list. -/
def repeats (P : FunDecl → Bool) : List FunDecl → List FunDecl → List FunDecl
  | _, [] => []
  | before, f :: fs =>
    let rest := repeats P (before ++ [f]) fs
    if before.any fun g => g.name = f.name && P g then f :: rest else rest

section
variable {env : Env} {c : Collected} {f : FunDecl} {before fs : List FunDecl} {P : FunDecl → Bool}

private theorem isOk_iff {ε α : Type} {x : Except ε α} : x.isOk = true ↔ ∃ a, x = .ok a := by
  cases x <;> simp [Except.isOk, Except.toBool]

theorem hasLayouts_iff : hasLayouts env.aliases f = true ↔ ∃ sig, signatureOf env f = .ok sig := by
  rw [signatureOf_isOk]
  simp [hasLayouts, isOk_iff]

/-- The names with a signature are those of the functions seen so far that have layouts. -/
private def Knows (env : Env) (before : List FunDecl) (c : Collected) : Prop :=
  ∀ name, (c.signatures.lookup name).isSome = before.any fun g => g.name = name && hasLayouts env.aliases g

private theorem Knows.collect (h : Knows env before c) (f : FunDecl) : Knows env (before ++ [f]) (collect env c f) := by
  intro name
  have hname := h name
  unfold Lower.collect
  by_cases ht : (c.signatures.lookup f.name).isSome = true
  · -- the name is known already, so this function adds none
    rw [if_pos ht]
    rw [h f.name] at ht
    by_cases hf : f.name = name
    · subst hf
      simp [hname, ht]
    · simp [hname, hf]
  · rw [if_neg ht]
    cases hs : signatureOf env f with
    | error e =>
      have hno : hasLayouts env.aliases f = false := by
        rw [Bool.eq_false_iff, ne_eq, hasLayouts_iff]
        simp [hs]
      simp [hname, hno]
    | ok sig =>
      have hyes : hasLayouts env.aliases f = true := hasLayouts_iff.mpr ⟨sig, hs⟩
      by_cases hf : f.name = name
      · simp [hf, hyes]
      · simp [List.lookup_cons, beq_false_of_ne (Ne.symm hf), hname, hf]

private theorem collect_duplicates (h : Knows env before c) :
    (collect env c f).errors.filterMap ProgramError.duplicate? =
      (if before.any fun g => g.name = f.name && hasLayouts env.aliases g then [(f.name, f.loc)] else []) ++
        c.errors.filterMap ProgramError.duplicate? := by
  rw [← h f.name, collect]
  cases (c.signatures.lookup f.name).isSome
  · cases signatureOf env f <;> simp [ProgramError.duplicate?, List.filterMap_cons]
  · simp [ProgramError.duplicate?]

private theorem foldl_collect_duplicates (h : Knows env before c) (fs : List FunDecl) :
    (fs.foldl (collect env) c).errors.reverse.filterMap ProgramError.duplicate? =
      c.errors.reverse.filterMap ProgramError.duplicate? ++
        (repeats (hasLayouts env.aliases) before fs).map fun f => (f.name, f.loc) := by
  induction fs generalizing before c with
  | nil => simp [repeats]
  | cons f fs ih =>
    rw [List.foldl_cons, ih (h.collect f), List.filterMap_reverse, collect_duplicates h, repeats]
    split <;> simp [List.filterMap_reverse]

/-- Nothing else among the errors of an environment is a duplicate. -/
theorem environmentErrors_duplicates (o : Options) (p : Source.Program) :
    (environmentErrors o p).filterMap ProgramError.duplicate? =
      (repeats (hasLayouts p.aliases) [] p.functions).map fun f => (f.name, f.loc) := by
  have hentries (names : List String) : (entryErrors names).filterMap ProgramError.duplicate? = [] := by
    unfold entryErrors
    split <;> rfl
  have hempty : Knows ⟨o.name, p.aliases, [], o.verify⟩ [] ⟨[], [], []⟩ := fun _ => rfl
  have hall := foldl_collect_duplicates hempty p.functions
  simp only [List.reverse_nil, List.filterMap_nil, List.nil_append] at hall
  rw [← hall, environmentErrors, environment]
  dsimp only
  split
  · rename_i hok
    split at hok
    · rename_i hnil
      rw [List.isEmpty_iff, List.append_eq_nil_iff] at hnil
      rw [hnil.1, List.filterMap_nil]
    · cases hok
  · rename_i herr
    split at herr
    · cases herr
    · cases herr
      rw [List.filterMap_append, hentries, List.append_nil]

private theorem repeats_sublist (P : FunDecl → Bool) (before fs : List FunDecl) :
    (repeats P before fs).Sublist (repeats (fun _ => true) before fs) := by
  induction fs generalizing before with
  | nil => exact .slnil
  | cons f fs ih =>
    simp only [repeats]
    split
    · rename_i h
      obtain ⟨g, hg, hname⟩ := List.any_eq_true.mp h
      rw [Bool.and_eq_true] at hname
      have hany : before.any (fun g => g.name = f.name && true) = true :=
        List.any_eq_true.mpr ⟨g, hg, by simpa using hname.1⟩
      rw [if_pos hany]
      exact (ih _).cons_cons f
    · split
      · exact (ih _).cons f
      · exact ih _

/-- A function with one of its name before it has one before it for which `P` holds. -/
private def Follows (P : FunDecl → Bool) (before : List FunDecl) (f : FunDecl) : Prop :=
  (∃ g ∈ before, g.name = f.name) → ∃ g ∈ before, g.name = f.name ∧ P g = true

private theorem follows_iff : Follows P before f ↔ (before.any (fun g => g.name = f.name && true) = true →
    before.any (fun g => g.name = f.name && P g) = true) := by
  simp [Follows]

private theorem follows_split : (∀ between g after, f :: fs = between ++ g :: after → Follows P (before ++ between) g) ↔
    Follows P before f ∧ ∀ between g after, fs = between ++ g :: after → Follows P (before ++ [f] ++ between) g := by
  constructor
  · intro h
    refine ⟨by simpa using h [] f fs rfl, fun between g after he => ?_⟩
    simpa using h (f :: between) g after (by simp [he])
  · rintro ⟨hf, h⟩ between g after he
    cases between with
    | nil =>
      cases he
      simpa using hf
    | cons x between =>
      cases he
      simpa using h between g after rfl

private theorem repeats_eq_iff : repeats P before fs = repeats (fun _ => true) before fs ↔
    ∀ between f after, fs = between ++ f :: after → Follows P (before ++ between) f := by
  induction fs generalizing before with
  | nil => simp [repeats]
  | cons f fs ih =>
    rw [follows_split, ← ih, follows_iff]
    have hrest := (repeats_sublist P (before ++ [f]) fs).length_le
    simp only [repeats]
    by_cases hall : before.any (fun g => g.name = f.name && true) = true
    · rw [if_pos hall]
      by_cases hp : before.any (fun g => g.name = f.name && P g) = true
      · simp [hp]
      · -- the one list has a function that the other passes over
        rw [if_neg hp]
        refine iff_of_false (fun he => ?_) fun h => hp (h.1 hall)
        rw [he, List.length_cons] at hrest
        exact Nat.not_succ_le_self _ hrest
    · have hp : ¬ before.any (fun g => g.name = f.name && P g) = true := by
        simp only [List.any_eq_true, Bool.and_eq_true, not_exists] at hall ⊢
        exact fun g hg => hall g ⟨hg.1, hg.2.1, trivial⟩
      rw [if_neg hall, if_neg hp]
      exact (and_iff_right fun h => absurd h hall).symm

end

/-- The duplicates that are reported are the functions behind one of their name that has layouts. These are all the
functions behind one of their name if and only if none of them has such ones without layouts only before it. -/
theorem duplicates_reported (o : Options) (p : Source.Program) :
    ((environmentErrors o p).filterMap ProgramError.duplicate? =
      (repeats (hasLayouts p.aliases) [] p.functions).map fun f => (f.name, f.loc)) ∧
    ((environmentErrors o p).filterMap ProgramError.duplicate? =
        ((repeats (fun _ => true) [] p.functions).map fun f => (f.name, f.loc)) ↔
      ∀ before f after, p.functions = before ++ f :: after → (∃ g ∈ before, g.name = f.name) →
        ∃ g ∈ before, g.name = f.name ∧ hasLayouts p.aliases g = true) := by
  have hreported := environmentErrors_duplicates o p
  refine ⟨hreported, ?_⟩
  rw [hreported]
  refine Iff.trans ⟨fun h => (repeats_sublist ..).eq_of_length ?_, congrArg _⟩ repeats_eq_iff
  simpa using congrArg List.length h

/-- The first of the two functions has a result of no known type. -/
private def hidden : Source.Program :=
  ⟨[.fn ⟨⟨1, 10⟩, "f", [], .named "nope", [], false⟩, .fn ⟨⟨1, 26⟩, "f", [], .void, [], false⟩]⟩

/-- The second function is not reported, though one of its name stands before it. -/
theorem hidden_duplicate :
    repeats (fun _ => true) [] hidden.functions = [⟨⟨1, 26⟩, "f", [], .void, [], false⟩] ∧
      environmentErrors (.standard "Q") hidden = [.inFunction ⟨"f", ⟨1, 10⟩, .badType ⟨.named "nope", .unknownName⟩⟩] ∧
      (environmentErrors (.standard "Q") hidden).filterMap ProgramError.duplicate? ≠
        (repeats (fun _ => true) [] hidden.functions).map fun f => (f.name, f.loc) :=
  ⟨rfl, rfl, nofun⟩

end WhileStack.Lower
