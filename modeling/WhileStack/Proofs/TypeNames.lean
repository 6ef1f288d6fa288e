import WhileStack.Proofs.Lower.Mismatch

/-! Names of the types that a compiler works with. Those of programs that have been read are unambiguous, so an error
that says which type was wanted and which one was found never names the same one twice. -/
namespace WhileStack.Lower
open Source (Loc)

/-- The machine types of a program: the layouts of its types. -/
def HasMachineTy (p : Source.Program) (m : Machine.Ty) : Prop :=
  ∃ t, p.HasTy t ∧ (layout p.aliases t = .ok m ∨ valueLayout p.aliases t = .ok m)

private theorem HasMachineTy.isLegible {p : Source.Program} {m : Machine.Ty} (hp : p.FieldsNamed)
    (h : HasMachineTy p m) : m.isLegible = true := by
  obtain ⟨t, ht, hm⟩ := h
  have hlayout : layout p.aliases t = .ok m := hm.elim id layout_of_valueLayout
  exact layout_isLegible (fun _ _ hn => Source.Program.everyTy_alias hp hn) (hp.hasTy ht) hlayout

/-- Types of programs that have been read are the same if and only if their names are, and no error that compiling such
a program ends with wants a type and finds one of the same name. -/
theorem type_names_unambiguous {entry entry' text text' : String} {p q : Source.Program}
    (hp : Source.Program.parse entry text = .ok p) (hq : Source.Program.parse entry' text' = .ok q) :
    (∀ a b, HasMachineTy p a → HasMachineTy q b → (a.same b = true ↔ a.text = b.text)) ∧
    ∀ o es, compile o p = .error es → ∀ f loc context want got loc',
      .inFunction ⟨f, loc, .mismatch context want got loc'⟩ ∈ es → want.text ≠ got.text := by
  have hp := Source.Program.fieldsNamed_of_parse hp
  have hq := Source.Program.fieldsNamed_of_parse hq
  exact ⟨fun a b ha hb => Machine.Ty.same_iff_text (ha.isLegible hp) (hb.isLegible hq),
    fun o es he f loc context want got loc' hm => isClear_compile hp he hm⟩

private def swapped : String :=
  "(program (type row (record (< int) (> (list int)))) " ++
  "(fun f row ((x (record (> (list int)) (< int)))) (return (var (record (> (list int)) (< int)) x))))"

private def ordered : Machine.Ty := .record [("<", .int), (">", .list .int)]

private def reversed : Machine.Ty := .record [(">", .list .int), ("<", .int)]

private def mixedUp : ProgramError := .inFunction ⟨"f", ⟨1, 53⟩, .mismatch .result ordered reversed ⟨1, 110⟩⟩

private def failures {α : Type} : Except (List ProgramError) α → List ProgramError
  | .ok _ => []
  | .error es => es

/-- Records with the same fields in another order. -/
theorem reversed_fields_told_apart :
    ∃ p es, Source.Program.parse "main" swapped = .ok p ∧ compile (.standard "Q") p = .error es ∧ mixedUp ∈ es ∧
      ordered.text ≠ reversed.text ∧ HasMachineTy p ordered ∧ HasMachineTy p reversed ∧
      (ordered.same reversed = true ↔ ordered.text = reversed.text) := by
  have h : (Source.Program.parse "main" swapped).toOption.map
      (fun p => (p.aliases, p.functions.map Source.FunDecl.params, failures (compile (.standard "Q") p))) =
      some ([("row", .record [("<", .int), (">", .list .int)])], [[("x", .record [(">", .list .int), ("<", .int)])]],
        [mixedUp]) := by
    decide +kernel
  obtain ⟨p, hp, hfacts⟩ := Partial.eq_ok_of_toOption_map h
  obtain ⟨haliases, hparams, hfails⟩ := by simpa only [Prod.mk.injEq] using hfacts
  obtain ⟨es, hes⟩ : ∃ es, compile (.standard "Q") p = .error es := by
    cases hc : compile (.standard "Q") p with
    | ok c => simp [hc, failures] at hfails
    | error es => exact ⟨es, rfl⟩
  have hmem : mixedUp ∈ es := by
    simp only [hes, failures] at hfails
    simp [hfails]
  have hordered : HasMachineTy p ordered := by
    refine ⟨.record [("<", .int), (">", .list .int)], .alias (n := "row") ?_, .inl ?_⟩
    · rw [haliases]
      rfl
    · rw [haliases]
      rfl
  have hreversed : HasMachineTy p reversed := by
    obtain ⟨f, fs, hf, hparam, -⟩ := List.map_eq_cons_iff.mp hparams
    refine ⟨.record [(">", .list .int), ("<", .int)], ?_, .inl ?_⟩
    · have hmem : f ∈ p.functions := hf ▸ List.mem_cons_self ..
      have hx : ("x", .record [(">", .list .int), ("<", .int)]) ∈ f.params := hparam ▸ List.mem_cons_self ..
      exact .param hmem hx
    · rw [haliases]
      rfl
  obtain ⟨hsame, hclear⟩ := type_names_unambiguous hp hp
  exact ⟨p, es, hp, hes, hmem, hclear _ es hes _ _ _ _ _ _ hmem, hordered, hreversed, hsame _ _ hordered hreversed⟩

end WhileStack.Lower
