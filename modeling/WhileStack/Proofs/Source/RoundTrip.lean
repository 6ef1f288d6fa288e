import WhileStack.Proofs.Source.ReadsBack

/-! Programs that are written and read again. What has been read from a text can be read once more from its own. -/
namespace WhileStack.Source

section Entry
variable (entry : String)

private def Decl.isEntry : Decl → Bool
  | .fn f => f.isEntry
  | .type _ => false

private theorem entry?_isSome (p : Program) : p.entry?.isSome = p.decls.any Decl.isEntry := by
  rw [Program.entry?, Program.functions, List.isSome_find?, List.any_filterMap]
  congr
  funext d
  cases d <;> rfl

private theorem isEntry_unplaced (d : Decl) : d.unplaced.isEntry = d.isEntry := by
  cases d <;> rfl

private theorem markEntry_unplaced (ds : List Decl) :
    markEntry entry (ds.map Decl.unplaced) = (markEntry entry ds).map Decl.unplaced := by
  induction ds with
  | nil => rfl
  | cons d ds ih =>
    cases d with
    | type t => simp [markEntry, Decl.unplaced, ih]
    | fn f =>
      by_cases hf : f.name = entry
      · simp [markEntry, Decl.unplaced, hf]
      · simp [markEntry, Decl.unplaced, hf, ih]

/-- A function is marked, or there is none of that name. -/
private theorem markEntry_marks (ds : List Decl) :
    (markEntry entry ds).any Decl.isEntry = true ∨ markEntry entry ds = ds := by
  induction ds with
  | nil => exact .inr rfl
  | cons d ds ih =>
    cases d with
    | type t =>
      rcases ih with ih | ih
      · exact .inl (by simp [markEntry, ih])
      · exact .inr (by simp [markEntry, ih])
    | fn f =>
      by_cases hf : f.name = entry
      · exact .inl (by simp [markEntry, Decl.isEntry, hf])
      · rcases ih with ih | ih
        · exact .inl (by simp [markEntry, hf, ih])
        · exact .inr (by simp [markEntry, hf, ih])

namespace Program

theorem unplaced_withEntry (p : Program) : (p.withEntry entry).unplaced = p.unplaced.withEntry entry := by
  have hany : p.unplaced.entry?.isSome = p.entry?.isSome := by
    simp [entry?_isSome, unplaced, Function.comp_def, isEntry_unplaced]
  unfold withEntry
  rw [hany]
  split
  · rfl
  · simp [unplaced, markEntry_unplaced]

theorem withEntry_withEntry (p : Program) : (p.withEntry entry).withEntry entry = p.withEntry entry := by
  by_cases h : p.entry?.isSome || entry.isEmpty
  · simp only [withEntry, h, if_true]
  · have hp : p.withEntry entry = ⟨markEntry entry p.decls⟩ := by simp only [withEntry, h]; rfl
    rw [hp]
    rcases markEntry_marks entry p.decls with hm | hm
    · simp [withEntry, entry?_isSome, hm]
    · rw [hm]
      exact hp.trans (by rw [hm])

end Program

end Entry

namespace Program

/-- The entry point is chosen after everything has been read. -/
theorem ofDatum_eq_map (entry : String) (d : Datum) :
    Program.ofDatum entry d = (Program.ofDatum "" d).map (Program.withEntry entry) := by
  have hnone (p : Program) : p.withEntry "" = p := by simp [withEntry]
  unfold Program.ofDatum
  split
  · simp only [hnone]
    cases (d.items.drop 1).mapM declOf <;> rfl
  · rfl

theorem parse_eq_ok_iff {entry text : String} {p : Program} : Program.parse entry text = .ok p ↔
    ∃ d, Datum.parse text = .ok d ∧ Program.ofDatum entry d = .ok p := by
  unfold Program.parse
  cases Datum.parse text with
  | error e => simp
  | ok d => cases hp : Program.ofDatum entry d <;> simp [hp]

/-- Reading what has been written of a program gives the program, places apart. -/
theorem parse_render_unplaced {entry text : String} {p : Program} (h : Program.parse entry text = .ok p)
    (hs : ∀ s ∈ p.strings, ∀ c ∈ s.toList, Datum.isPlain c = true) :
    ∃ q, Program.parse entry p.render = .ok q ∧ q.unplaced = p.unplaced := by
  obtain ⟨d, hd, hp⟩ := parse_eq_ok_iff.mp h
  have hback := Program.readsBack (readable_of_ofDatum (Datum.isWritten_of_parse hd) p hp)
  obtain ⟨d', hd', hbare⟩ := Datum.parse_render_of_isWritten hback.written (by rwa [strings_toDatum])
  obtain ⟨q, hq, hqu⟩ := hback.again hbare
  have hentry : p.withEntry entry = p := by
    rw [ofDatum_eq_map] at hp
    obtain ⟨p₀, -, rfl⟩ := Partial.map_eq_ok.mp hp
    exact withEntry_withEntry ..
  refine ⟨q.withEntry entry, parse_eq_ok_iff.mpr ⟨d', hd', by rw [ofDatum_eq_map, hq]; rfl⟩, ?_⟩
  calc (q.withEntry entry).unplaced
    _ = q.unplaced.withEntry entry := unplaced_withEntry ..
    _ = p.unplaced.withEntry entry := by rw [hqu]
    _ = (p.withEntry entry).unplaced := (unplaced_withEntry ..).symm
    _ = p.unplaced := by rw [hentry]

private def greeting : String :=
  "(program (fun main void () ^\x7bline: 9\x7d (decl int x (const int -7)) (print (const string \"a\\n\"))))"

theorem greeting_reads_back : ∃ p q, Program.parse "main" greeting = .ok p ∧ Program.parse "main" p.render = .ok q ∧
    q.unplaced = p.unplaced := by
  have h : (Program.parse "main" greeting).toOption.map Program.strings = some ["a\n"] := by decide +kernel
  obtain ⟨p, hp, hs⟩ := Partial.eq_ok_of_toOption_map h
  have hplain : ∀ s ∈ p.strings, ∀ c ∈ s.toList, Datum.isPlain c = true := by
    have hall : ["a\n"].all (fun s => s.toList.all Datum.isPlain) = true := by decide +kernel
    rw [hs]
    simpa only [List.all_eq_true] using hall
  obtain ⟨q, hq, hqu⟩ := parse_render_unplaced hp hplain
  exact ⟨p, q, hp, hq, hqu⟩

end Program

end WhileStack.Source
