import WhileStack.Proofs.Lower.Environment
import WhileStack.Proofs.Lower.Slots
import WhileStack.Proofs.Machine.Legible
import WhileStack.Proofs.Source.Named

/-! Types that do not fit. Lowering compares types of programs only, so whenever it finds two that differ it can name
them apart. -/
namespace WhileStack.Lower
open Source (Aliases FunDecl)
open Machine.Ty (isLegible areLegible isLegible_of_mem)

/-! ### Layouts -/

/-- The types that names stand for have symbols for field names. -/
def AliasesNamed (aliases : Aliases) : Prop := ∀ n t, aliases.lookup n = some t → t.isNamed = true

private theorem all_isSymbolChar {n : String} (h : Datum.isSymbolText n.toList = true) :
    n.toList.all Datum.isSymbolChar = true := by
  cases hn : n.toList with
  | nil => rfl
  | cons c cs =>
    rw [hn] at h
    simp only [Datum.isSymbolText, Bool.and_eq_true] at h
    rw [List.all_cons, h.1.2, h.2]
    rfl

mutual

private theorem layoutWith_isLegible {onName : String → Bool → Except LayoutError Machine.Ty}
    (hn : ∀ n a m, onName n a = .ok m → m.isLegible = true) :
    ∀ (t : Source.Ty), t.isNamed = true → ∀ {a m}, layoutWith onName a t = .ok m → m.isLegible = true
  | .void, _, a, m, h => by
    cases a with
    | true => cases h; rfl
    | false => cases h
  | .bool, _, _, _, h | .int, _, _, _, h | .string, _, _, _, h => by cases h; rfl
  | .named n, _, a, m, h => hn n a m h
  | .list t, ht, _, _, h => by
    obtain ⟨u, hu, h⟩ := Partial.then_eq_ok.mp h
    cases h
    rw [isLegible]
    exact layoutWith_isLegible hn t (by simpa only [Source.Ty.isNamed] using ht) hu
  | .record fs, ht, _, _, h => by
    obtain ⟨us, hus, h⟩ := Partial.then_eq_ok.mp h
    cases h
    rw [isLegible]
    exact fieldLayouts_areLegible hn fs (by simpa only [Source.Ty.isNamed] using ht) hus

private theorem fieldLayouts_areLegible {onName : String → Bool → Except LayoutError Machine.Ty}
    (hn : ∀ n a m, onName n a = .ok m → m.isLegible = true) :
    ∀ (fs : List (String × Source.Ty)), Source.Ty.areNamed fs = true → ∀ {ms}, fieldLayouts onName fs = .ok ms →
      areLegible ms = true
  | [], _, _, h => by cases h; rfl
  | (n, t) :: fs, hfs, _, h => by
    simp only [Source.Ty.areNamed, Bool.and_eq_true] at hfs
    obtain ⟨u, hu, h⟩ := Partial.then_eq_ok.mp h
    obtain ⟨us, hus, h⟩ := Partial.then_eq_ok.mp h
    cases h
    simp [areLegible, all_isSymbolChar hfs.1.1, layoutWith_isLegible hn t hfs.1.2 hu,
      fieldLayouts_areLegible hn fs hfs.2 hus]

end

private theorem nameLayout_isLegible {aliases : Aliases} (ha : AliasesNamed aliases) {left : Nat}
    {expanding : List String} {n : String} {a : Bool} {m : Machine.Ty}
    (h : nameLayout aliases left expanding n a = .ok m) : m.isLegible = true := by
  induction left generalizing expanding n a m with
  | zero =>
    obtain ⟨_, _, hl, -⟩ := nameLayout_eq_ok h
    omega
  | succ left ih =>
    obtain ⟨_, t, hl, -, hn, ht⟩ := nameLayout_eq_ok h
    cases hl
    exact layoutWith_isLegible (fun _ _ _ h => ih h) t (ha n t hn) ht

theorem layout_isLegible {aliases : Aliases} (ha : AliasesNamed aliases) {t : Source.Ty} (ht : t.isNamed = true)
    {m : Machine.Ty} (h : layout aliases t = .ok m) : m.isLegible = true :=
  layoutWith_isLegible (fun _ _ _ h => nameLayout_isLegible ha h) t ht h

/-! ### Functions and programs -/

/-- No two types that do not fit are named alike. -/
def Cause.IsClear : Cause → Prop
  | .mismatch _ want got _ => want.text ≠ got.text
  | _ => True

theorem Cause.IsOf.isClear {e : Cause} (h : e.IsOf (isLegible · = true)) : e.IsClear := by
  cases e with
  | mismatch context want got loc =>
    obtain ⟨hw, hg, hne⟩ := h
    intro htext
    rw [(Machine.Ty.same_iff_text hw hg).mpr htext] at hne
    cases hne
  | _ => trivial

private theorem legible_isKind : IsKind (isLegible · = true) where
  void := rfl
  int := rfl
  boolean := rfl
  string := rfl
  elem h := by simpa only [isLegible] using h
  field h hf := isLegible_of_mem (by simpa only [isLegible] using h) hf

/-- Whatever is looked up when types are written with symbols for field names has a type that can be named. -/
abbrev Env.Named (env : Env) : Prop := env.Gives Source.Ty.isNamed (isLegible · = true)

section
variable {env : Env} {f : FunDecl} {sig : Machine.Signature} {e : Cause}

private theorem valueLayouts_areLegible (ha : AliasesNamed env.aliases) {ps : List (String × Source.Ty)}
    {ts : List Machine.Ty} (hp : ps.all (fun p => p.2.isNamed) = true)
    (h : List.Forall₂ (fun p t => valueLayout env.aliases p.2 = .ok t) ps ts) : ∀ t ∈ ts, t.isLegible = true := by
  intro t ht
  obtain ⟨p, hm, hl⟩ := Machine.exists_of_forall₂ h.flip ht
  exact layout_isLegible ha (List.all_eq_true.mp hp p hm) (layout_of_valueLayout hl)

private theorem isClear_bodyCode (he : env.Named) (hsig : signatureOf env f = .ok sig)
    (hf : f.everyTy Source.Ty.isNamed = true) (h : bodyCode env f sig = .error e) : e.IsClear := by
  simp only [FunDecl.everyTy, Bool.and_eq_true] at hf
  obtain ⟨-, -, hret, -⟩ := signatureOf_eq_ok hsig
  have hsymbols : ∀ s, initialSymbols env f sig = .ok s → s.Of (isLegible · = true) := by
    intro s hs b hb
    obtain ⟨-, news, -, hvisible, hnews⟩ := initialSymbols_slots hsig hs
    rw [hvisible, List.mem_reverse] at hb
    obtain ⟨l, hl, rfl⟩ := List.mem_map.mp hb
    obtain ⟨p, hm, -, ht⟩ := Machine.exists_of_forall₂ hnews.flip hl
    exact he.layout (List.all_eq_true.mp hf.1.1 p hm) (layout_of_valueLayout ht)
  exact (isOf_bodyCode he (he.layout hf.1.2 hret) hsymbols hf.2 h).isClear

private theorem isClear_lowerFunction (he : env.Named) (hsig : signatureOf env f = .ok sig)
    (hl : env.signatures.lookup f.name = some sig) (hf : f.everyTy Source.Ty.isNamed = true)
    (h : lowerFunction env f = .error e) : e.IsClear := by
  have hin : signatureIn env f = .ok sig := by rw [signatureIn, hl]
  unfold lowerFunction at h
  rw [hin, Partial.ok_then] at h
  rcases hb : bodyCode env f sig with e' | ⟨code, symbols⟩
  · rw [hb] at h
    cases h
    exact isClear_bodyCode he hsig hf hb
  · obtain ⟨full, hr, m, hm⟩ := bodyCode_accepted hb
    simp [hb, hr, stackOf, hm, bind, Except.bind, Partial.mapError_ok] at h

end

/-- The names of a program that can be read stand for types that can be named. -/
theorem environment_named {o : Options} {p : Source.Program} {env : Env} (hp : p.FieldsNamed)
    (h : environment o p = .ok env) : env.Named := by
  have haliases : AliasesNamed env.aliases := by
    rw [(environment_eq_ok h).1]
    exact fun n t ht => Source.Program.everyTy_alias hp ht
  have hsig : ∀ name sig, env.signatures.lookup name = some sig →
      ∃ f : FunDecl, f.everyTy Source.Ty.isNamed = true ∧ signatureOf env f = .ok sig := by
    intro name sig hl
    obtain ⟨f, hf, -, hs⟩ := (environment_lookup h).mp hl
    exact ⟨f, Source.Program.everyTy_function hp hf, hs⟩
  refine ⟨legible_isKind, fun ht h => layout_isLegible haliases ht h, fun name sig hl hst => ?_, fun name sig hl => ?_⟩
  all_goals
    obtain ⟨f, hf, hs⟩ := hsig name sig hl
    obtain ⟨types, htypes, hret, hparams, hentry, -⟩ := signatureOf_eq_ok hs
    simp only [FunDecl.everyTy, Bool.and_eq_true] at hf
  · rw [hparams, ← hentry, hst]
    exact valueLayouts_areLegible haliases hf.1.1 htypes
  · exact layout_isLegible haliases hf.1.2 hret

/-- A program whose fields have names that can be read fails clearly. -/
theorem isClear_compile {o : Options} {p : Source.Program} (hp : p.FieldsNamed) {es : List ProgramError}
    (h : compile o p = .error es) {e : FunctionError} (he : .inFunction e ∈ es) : e.cause.IsClear := by
  cases henv : environment o p with
  | error es' =>
    simp only [compile, henv, bind, Except.bind, Except.error.injEq] at h
    obtain ⟨x, hx⟩ := environment_causes (h ▸ henv) he
    rw [hx]
    trivial
  | ok env =>
    rw [compile_eq_error henv h] at he
    obtain ⟨e', he', heq⟩ := List.mem_map.mp he
    cases heq
    obtain ⟨f, hf, hfail⟩ := List.mem_filterMap.mp he'
    obtain ⟨sig, hsig, hl⟩ := (environment_eq_ok henv).2.1 f hf
    exact isClear_lowerFunction (environment_named hp henv) hsig hl (Source.Program.everyTy_function hp hf)
      (failure_eq_some hfail).2.2

end WhileStack.Lower
