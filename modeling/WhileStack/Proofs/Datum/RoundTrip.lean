import WhileStack.Proofs.Datum.Quoting

/-! Data that are written and read again. Only the positions change, as long as every string can be read back. -/
namespace WhileStack.Datum
open WhileStack.Text

mutual

/-- The datum without its positions. -/
def bare : Datum → Datum
  | symbol _ s => symbol default s
  | string _ s => string default s
  | integer _ s n => integer default s n
  | list _ items notes => list default (bareAll items) (bareEntries notes)
  | map _ entries => map default (bareEntries entries)

def bareAll : List Datum → List Datum
  | [] => []
  | d :: ds => bare d :: bareAll ds

def bareEntries : List (String × Datum) → List (String × Datum)
  | [] => []
  | (k, d) :: rest => (k, bare d) :: bareEntries rest

end

mutual

/-- The strings inside a datum: among its items, its map values and its notes. -/
def strings : Datum → List String
  | string _ s => [s]
  | list _ items notes => itemStrings items ++ entryStrings notes
  | map _ entries => entryStrings entries
  | _ => []

def itemStrings : List Datum → List String
  | [] => []
  | d :: ds => strings d ++ itemStrings ds

def entryStrings : List (String × Datum) → List String
  | [] => []
  | (_, d) :: rest => strings d ++ entryStrings rest

end

mutual

/-- The data that can be read from a text. Of two notes of one name only one is kept. -/
def isWritten : Datum → Bool
  | symbol _ s => isSymbolText s.toList
  | string .. => true
  | integer _ s n => isNumberText s.toList && readInt64? s.toList = some n
  | list _ items notes => areWritten items && entriesWritten notes && decide (notes.map Prod.fst).Nodup
  | map _ entries => entriesWritten entries

def areWritten : List Datum → Bool
  | [] => true
  | d :: ds => isWritten d && areWritten ds

def entriesWritten : List (String × Datum) → Bool
  | [] => true
  | (k, d) :: rest => isSymbolText k.toList && isWritten d && entriesWritten rest

end

theorem keys_of_bareEntries : ∀ entries : List (String × Datum),
    (bareEntries entries).map Prod.fst = entries.map Prod.fst
  | [] => rfl
  | (k, d) :: rest => by simp [bareEntries, keys_of_bareEntries rest]

theorem entriesWritten_append (entries more : List (String × Datum)) :
    entriesWritten (entries ++ more) = (entriesWritten entries && entriesWritten more) := by
  induction entries with
  | nil => rfl
  | cons e entries ih =>
    obtain ⟨k, d⟩ := e
    simp [entriesWritten, ih, Bool.and_assoc]

section Notes
variable {name : String} {value : Datum} {notes more : List (String × Datum)}

private theorem keys_addNote :
    (addNote notes name value).map Prod.fst =
      if name ∈ notes.map Prod.fst then notes.map Prod.fst else notes.map Prod.fst ++ [name] := by
  induction notes with
  | nil => rfl
  | cons n notes ih =>
    obtain ⟨k, v⟩ := n
    unfold addNote
    by_cases hk : k = name
    · simp [hk]
    · simp only [hk, if_false, List.map_cons, ih, List.mem_cons, Ne.symm hk, false_or]
      split <;> rfl

private theorem entriesWritten_addNote (h : entriesWritten notes = true) (hk : isSymbolText name.toList = true)
    (hv : value.isWritten = true) : entriesWritten (addNote notes name value) = true := by
  induction notes with
  | nil => simp [addNote, entriesWritten, hk, hv]
  | cons n notes ih =>
    obtain ⟨k, v⟩ := n
    simp only [entriesWritten, Bool.and_eq_true] at h
    unfold addNote
    split
    · simp [entriesWritten, h, hv]
    · simp [entriesWritten, h, ih h.2]

theorem nodup_addNotes (h : (notes.map Prod.fst).Nodup) : ((addNotes notes more).map Prod.fst).Nodup := by
  induction more generalizing notes with
  | nil => exact h
  | cons n more ih =>
    refine ih ?_
    rw [keys_addNote]
    split
    · exact h
    · rename_i hn
      refine List.nodup_append.mpr ⟨h, by simp, ?_⟩
      rintro k hk _ hk' rfl
      exact hn (List.mem_singleton.mp hk' ▸ hk)

theorem entriesWritten_addNotes (h : entriesWritten notes = true) (hm : entriesWritten more = true) :
    entriesWritten (addNotes notes more) = true := by
  induction more generalizing notes with
  | nil => exact h
  | cons n more ih =>
    simp only [entriesWritten, Bool.and_eq_true] at hm
    exact ih (entriesWritten_addNote h hm.1.1 hm.1.2) hm.2

private theorem addNote_of_new (h : name ∉ notes.map Prod.fst) : addNote notes name value = notes ++ [(name, value)] := by
  induction notes with
  | nil => rfl
  | cons n notes ih =>
    obtain ⟨k, v⟩ := n
    simp only [List.map_cons, List.mem_cons, not_or] at h
    simp [addNote, Ne.symm h.1, ih h.2]

/-- Notes of distinct names are all kept, in their order. -/
theorem addNotes_of_nodup (h : ((notes ++ more).map Prod.fst).Nodup) : addNotes notes more = notes ++ more := by
  induction more generalizing notes with
  | nil => simp [addNotes]
  | cons n more ih =>
    obtain ⟨k, v⟩ := n
    have hk : k ∉ notes.map Prod.fst := by
      simp only [List.map_append, List.map_cons, List.nodup_append] at h
      intro hm
      exact h.2.2 k hm k (List.mem_cons_self ..) rfl
    have h' : (((notes ++ [(k, v)]) ++ more).map Prod.fst).Nodup := by simpa using h
    calc addNotes notes ((k, v) :: more) = addNotes (addNote notes k v) more := rfl
      _ = addNotes (notes ++ [(k, v)]) more := by rw [addNote_of_new hk]
      _ = notes ++ (k, v) :: more := by rw [ih h', List.append_assoc, List.singleton_append]

end Notes

/-- From `p` on a text spells the datum, positions apart, and the rest is left. -/
private def Reads (p : Pos) (cs : List Char) (d : Datum) (rest : List Char) : Prop :=
  ∃ ts q d', Scans p cs ts q rest ∧ Spells ts d' ∧ d'.bare = d.bare

private def ReadsItems (p : Pos) (cs : List Char) (items : List Datum) (notes : List (String × Datum))
    (rest : List Char) : Prop :=
  ∃ ts q items' notes', Scans p cs ts q rest ∧ SpellsItems ts items' notes' ∧
    bareAll items' = bareAll items ∧ bareEntries notes' = bareEntries notes

private def ReadsEntries (p : Pos) (cs : List Char) (entries : List (String × Datum)) (rest : List Char) : Prop :=
  ∃ ts q entries', Scans p cs ts q rest ∧ SpellsEntries ts entries' ∧ bareEntries entries' = bareEntries entries

section Rules
variable {p r : Pos} {cs cs' rest : List Char} {d : Datum} {items : List Datum} {k : String}
  {notes entries : List (String × Datum)}

private theorem Reads.symbol (h : isSymbolText k.toList = true) (hrest : Stops rest) :
    Reads p (k.toList ++ rest) (.symbol r k) rest :=
  ⟨_, _, _, Scans.symbol h hrest, .symbol p k, rfl⟩

private theorem Reads.string (h : k.toList.all isPlain = true) : Reads p ((quote k).toList ++ rest) (.string r k) rest := by
  obtain ⟨q, hs⟩ := Scans.string h p rest
  exact ⟨_, q, _, hs, .string p k, rfl⟩

private theorem Reads.integer {n : Int} (h : isNumberText k.toList = true) (hn : readInt64? k.toList = some n)
    (hrest : Stops rest) : Reads p (k.toList ++ rest) (.integer r k n) rest :=
  ⟨_, _, _, Scans.integer h hrest, .integer p hn, rfl⟩

private theorem Reads.list (hn : (notes.map Prod.fst).Nodup)
    (h : ReadsItems (p.after '(') cs items notes (')' :: rest)) : Reads p ('(' :: cs) (.list r items notes) rest := by
  obtain ⟨ts, q, items', notes', hs, hi, hitems, hnotes⟩ := h
  have hkeys : (notes'.map Prod.fst).Nodup := by rwa [← keys_of_bareEntries, hnotes, keys_of_bareEntries]
  have hopen : Scans p ('(' :: cs) [⟨.lparen, p⟩] (p.after '(') cs := .mark rfl
  have hclose : Scans q (')' :: rest) [⟨.rparen, q⟩] (q.after ')') rest := .mark rfl
  refine ⟨_, _, _, (hopen.trans hs).trans hclose, .list p q hi, ?_⟩
  rw [addNotes_of_nodup (by simpa using hkeys)]
  simp [bare, hitems, hnotes]

private theorem Reads.map (h : ReadsEntries (p.after '\x7b') cs entries ('\x7d' :: rest)) :
    Reads p ('\x7b' :: cs) (.map r entries) rest := by
  obtain ⟨ts, q, entries', hs, he, hentries⟩ := h
  have hopen : Scans p ('\x7b' :: cs) [⟨.lbrace, p⟩] (p.after '\x7b') cs := .mark rfl
  have hclose : Scans q ('\x7d' :: rest) [⟨.rbrace, q⟩] (q.after '\x7d') rest := .mark rfl
  refine ⟨_, _, _, (hopen.trans hs).trans hclose, .map p q he, ?_⟩
  simp [bare, hentries]

private theorem ReadsItems.nil : ReadsItems p rest [] [] rest := ⟨_, _, _, _, .refl, .nil, rfl, rfl⟩

private theorem ReadsItems.item (h : Reads p cs d cs') (hs : ∀ q, ReadsItems q cs' items notes rest) :
    ReadsItems p cs (d :: items) notes rest := by
  obtain ⟨ts, q, d', hd, hspell, hbare⟩ := h
  obtain ⟨us, q', items', notes', hi, hspells, hitems, hnotes⟩ := hs q
  exact ⟨_, _, _, _, hd.trans hi, .item hspell hspells, by simp [bareAll, hbare, hitems], hnotes⟩

private theorem ReadsItems.blank (h : ∀ q, ReadsItems q cs items notes rest) :
    ReadsItems p (' ' :: cs) items notes rest := by
  obtain ⟨ts, q, items', notes', hi, hspells⟩ := h (p.after ' ')
  exact ⟨_, _, _, _, Scans.blank (by decide) |>.trans hi, hspells⟩

private theorem ReadsItems.onlyNotes (h : ∀ q, ReadsEntries q cs notes ('\x7d' :: rest)) :
    ReadsItems p ('^' :: '\x7b' :: cs) [] notes rest := by
  obtain ⟨ts, q, entries', hs, he, hentries⟩ := h ((p.after '^').after '\x7b')
  have hcaret : Scans p ('^' :: '\x7b' :: cs) [⟨.caret, p⟩] (p.after '^') ('\x7b' :: cs) := .mark rfl
  have hopen : Scans (p.after '^') ('\x7b' :: cs) [⟨.lbrace, p.after '^'⟩] ((p.after '^').after '\x7b') cs := .mark rfl
  have hclose : Scans q ('\x7d' :: rest) [⟨.rbrace, q⟩] (q.after '\x7d') rest := .mark rfl
  refine ⟨_, _, _, _, (hcaret.trans hopen).trans (hs.trans hclose), .notes p _ q he .nil, rfl, ?_⟩
  rw [List.append_nil, hentries]

private theorem ReadsEntries.nil : ReadsEntries p rest [] rest := ⟨_, _, _, .refl, .nil, rfl⟩

private theorem Scans.key (h : isSymbolText k.toList = true) (p : Pos) (cs : List Char) :
    ∃ q r, Scans p (k.toList ++ ':' :: ' ' :: cs) [⟨.symbol k, p⟩, ⟨.colon, q⟩] r cs := by
  have hk : Scans p (k.toList ++ ':' :: ' ' :: cs) [⟨.symbol k, p⟩] _ _ := .symbol h (.cons (by decide))
  exact ⟨_, _, (hk.trans (.mark rfl)).trans (.blank (by decide))⟩

private theorem ReadsEntries.last (hk : isSymbolText k.toList = true) (h : ∀ q, Reads q cs d rest) :
    ReadsEntries p (k.toList ++ ':' :: ' ' :: cs) [(k, d)] rest := by
  obtain ⟨q, r, hkey⟩ := Scans.key hk p cs
  obtain ⟨ts, q', d', hd, hspell, hbare⟩ := h r
  exact ⟨_, _, _, hkey.trans hd, .last p q k hspell, by simp [bareEntries, hbare]⟩

private theorem ReadsEntries.more (hk : isSymbolText k.toList = true) (h : ∀ q, Reads q cs d (',' :: ' ' :: cs'))
    (hs : ∀ q, ReadsEntries q cs' entries rest) :
    ReadsEntries p (k.toList ++ ':' :: ' ' :: cs) ((k, d) :: entries) rest := by
  obtain ⟨q, r, hkey⟩ := Scans.key hk p cs
  obtain ⟨ts, q₁, d', hd, hspell, hbare⟩ := h r
  have hcomma : Scans q₁ (',' :: ' ' :: cs') [⟨.comma, q₁⟩] ((q₁.after ',').after ' ') cs' :=
    Scans.mark rfl |>.trans (.blank (by decide))
  obtain ⟨us, q₂, entries', he, hspells, hentries⟩ := hs ((q₁.after ',').after ' ')
  exact ⟨_, _, _, (hkey.trans hd).trans (hcomma.trans he), by simpa using .more p q q₁ k hspell hspells,
    by simp [bareEntries, hbare, hentries]⟩

end Rules

mutual

private theorem reads_render : ∀ (d : Datum), d.isWritten = true → (∀ s ∈ d.strings, s.toList.all isPlain = true) →
    ∀ (p : Pos) (rest : List Char), Stops rest → Reads p (d.render.toList ++ rest) d rest
  | symbol _ s, hw, _, p, rest, hrest => .symbol hw hrest
  | string _ s, _, hs, p, rest, _ => .string (hs s (by simp [strings]))
  | integer _ s n, hw, _, p, rest, hrest => by
    simp only [isWritten, Bool.and_eq_true, decide_eq_true_eq] at hw
    exact .integer hw.1 hw.2 hrest
  | list _ items [], hw, hs, p, rest, _ => by
    simp only [isWritten, Bool.and_eq_true, decide_eq_true_eq] at hw
    have hitems := reads_items items hw.1.1 (fun s h => hs s (by simp [strings, h])) [] (')' :: rest) (fun _ => .nil)
      (.cons (by decide)) (p.after '(')
    simpa [render] using Reads.list hw.2 hitems
  | list _ items (note :: notes), hw, hs, p, rest, _ => by
    simp only [isWritten, Bool.and_eq_true, decide_eq_true_eq] at hw
    have hnotes := fun q => reads_entries (note :: notes) hw.1.2 (fun s h => hs s (by simp [strings, h])) q
      (')' :: rest)
    have hitems := reads_items items hw.1.1 (fun s h => hs s (by simp [strings, h]))
      ["^\x7b" ++ ", ".intercalate (renderEntries (note :: notes)) ++ "\x7d"] (')' :: rest)
      (fun _ => by simpa using ReadsItems.onlyNotes hnotes) (.cons (by decide)) (p.after '(')
    simpa [render] using Reads.list hw.2 hitems
  | map _ entries, hw, hs, p, rest, _ => by
    have hentries := reads_entries entries hw hs (p.after '\x7b') rest
    simpa [render] using Reads.map hentries

private theorem reads_items : ∀ (items : List Datum), areWritten items = true →
    (∀ s ∈ itemStrings items, s.toList.all isPlain = true) →
    ∀ (tail : List String) {notes : List (String × Datum)} (rest : List Char),
    (∀ p, ReadsItems p ((" ".intercalate tail).toList ++ rest) [] notes rest) → Stops rest →
    ∀ p, ReadsItems p ((" ".intercalate (renderAll items ++ tail)).toList ++ rest) items notes rest
  | [], _, _, tail, notes, rest, htail, _, p => htail p
  | d :: ds, hw, hs, tail, notes, rest, htail, hrest, p => by
    simp only [areWritten, Bool.and_eq_true] at hw
    have hitems := reads_items ds hw.2 (fun s h => hs s (by simp [itemStrings, h])) tail rest htail hrest
    have hd := reads_render d hw.1 (fun s h => hs s (by simp [itemStrings, h])) p
    rw [renderAll, List.cons_append]
    cases hparts : renderAll ds ++ tail with
    | nil =>
      rw [hparts] at hitems
      exact .item (by simpa using hd rest hrest) (by simpa using hitems)
    | cons part parts =>
      rw [hparts] at hitems
      rw [String.intercalate_cons_cons]
      simpa using ReadsItems.item (hd _ (.cons (by decide))) fun q => .blank hitems

private theorem reads_entries : ∀ (entries : List (String × Datum)), entriesWritten entries = true →
    (∀ s ∈ entryStrings entries, s.toList.all isPlain = true) → ∀ (p : Pos) (rest : List Char),
    ReadsEntries p ((", ".intercalate (renderEntries entries)).toList ++ '\x7d' :: rest) entries ('\x7d' :: rest)
  | [], _, _, p, rest => .nil
  | [(k, d)], hw, hs, p, rest => by
    simp only [entriesWritten, Bool.and_eq_true] at hw
    have hd := fun q => reads_render d hw.1.2 (fun s h => hs s (by simp [entryStrings, h])) q
      ('\x7d' :: rest) (.cons (by decide))
    simpa [renderEntries] using ReadsEntries.last hw.1.1 hd
  | (k, d) :: entry :: entries, hw, hs, p, rest => by
    rw [entriesWritten, Bool.and_eq_true, Bool.and_eq_true] at hw
    have hd := fun q => reads_render d hw.1.2 (fun s h => hs s (by simp [entryStrings, h])) q
      (',' :: ' ' :: ((", ".intercalate (renderEntries (entry :: entries))).toList ++ '\x7d' :: rest))
      (.cons (by decide))
    have hentries := fun q => reads_entries (entry :: entries) hw.2
      (fun s h => hs s (by rw [entryStrings]; exact List.mem_append_right _ h)) q rest
    have hmore := ReadsEntries.more (p := p) hw.1.1 hd hentries
    obtain ⟨k', d'⟩ := entry
    simpa [renderEntries, String.intercalate_cons_cons] using hmore

end

mutual

private theorem Spells.isWritten : ∀ {ts : List Token} {d : Datum}, Spells ts d →
    (∀ t ∈ ts, t.lexeme.isWritten = true) → d.isWritten = true
  | _, _, .symbol p s, h => h _ (List.mem_singleton_self _)
  | _, _, .string .., _ => rfl
  | _, _, .integer p hn, h => by
    have hs := h _ (List.mem_singleton_self _)
    simpa [Datum.isWritten, Lexeme.isWritten, hn] using hs
  | _, _, .list p q hi, h => by
    have hi := hi.isWritten fun t ht => h t (by simp [ht])
    have hn := entriesWritten_addNotes (show entriesWritten [] = true from rfl) hi.2
    simp only [Datum.isWritten, hi.1, hn, Bool.true_and, decide_eq_true_eq]
    exact nodup_addNotes .nil
  | _, _, .map p q he, h => he.isWritten fun t ht => h t (by simp [ht])

private theorem SpellsItems.isWritten : ∀ {ts : List Token} {items : List Datum} {notes : List (String × Datum)},
    SpellsItems ts items notes → (∀ t ∈ ts, t.lexeme.isWritten = true) →
    areWritten items = true ∧ entriesWritten notes = true
  | _, _, _, .nil, _ => ⟨rfl, rfl⟩
  | _, _, _, .item hd hi, h => by
    have hd := hd.isWritten fun t ht => h t (by simp [ht])
    have hi := hi.isWritten fun t ht => h t (by simp [ht])
    exact ⟨by simp [areWritten, hd, hi.1], hi.2⟩
  | _, _, _, .notes p q r he hi, h => by
    have he := he.isWritten fun t ht => h t (by simp [ht])
    have hi := hi.isWritten fun t ht => h t (by simp [ht])
    exact ⟨hi.1, by simp [entriesWritten_append, he, hi.2]⟩

private theorem SpellsEntries.isWritten : ∀ {ts : List Token} {entries : List (String × Datum)},
    SpellsEntries ts entries → (∀ t ∈ ts, t.lexeme.isWritten = true) → entriesWritten entries = true
  | _, _, .nil, _ => rfl
  | _, _, .last p q k hd, h => by
    have hk : isSymbolText k.toList = true := h _ (List.mem_cons_self ..)
    have hd := hd.isWritten fun t ht => h t (by simp [ht])
    simp [entriesWritten, hk, hd]
  | _, _, .more p q r k hd he, h => by
    have hk : isSymbolText k.toList = true := h _ (List.mem_cons_self ..)
    have hd := hd.isWritten fun t ht => h t (by simp [ht])
    have he := he.isWritten fun t ht => h t (by simp [ht])
    simp [entriesWritten, hk, hd, he]

end

theorem isWritten_of_parse {text : String} {d : Datum} (h : Datum.parse text = .ok d) : d.isWritten = true := by
  have hread : readAll (lex text.toList).tokens = .ok d := by
    unfold Datum.parse ofChars ofLexed at h
    split at h
    · rename_i hr _
      cases h
      exact hr
    · cases h
    · cases h
    · split at h <;> cases h
  exact (readAll_eq_ok_iff.mp hread).isWritten (lexFrom_isWritten _ _ _)

/-- A datum that can be read from a text is read again from its own. -/
theorem parse_render_of_isWritten {d : Datum} (hw : d.isWritten = true)
    (hs : ∀ s ∈ d.strings, ∀ c ∈ s.toList, isPlain c = true) :
    ∃ d', Datum.parse d.render = .ok d' ∧ d'.bare = d.bare := by
  obtain ⟨ts, q, d', hscan, hspell, hbare⟩ :=
    reads_render d hw (fun s h => List.all_eq_true.mpr (hs s h)) .start [] (by rintro _ ⟨⟩)
  rw [List.append_nil] at hscan
  exact ⟨d', parse_of_scans hscan hspell, hbare⟩

/-- Reading what has been written of a datum gives the datum, positions apart. -/
theorem parse_render {text : String} {d : Datum} (h : Datum.parse text = .ok d)
    (hs : ∀ s ∈ d.strings, ∀ c ∈ s.toList, isPlain c = true) :
    ∃ d', Datum.parse d.render = .ok d' ∧ d'.bare = d.bare :=
  parse_render_of_isWritten (isWritten_of_parse h) hs

private def ledger : String := "(^\x7brow: -7, row: +\x7d + -7 \x7bx: 1, x: \"a\\tb\"\x7d (^\x7brow: (+)\x7d))"

theorem ledger_reads_back :
    ∃ d d', Datum.parse ledger = .ok d ∧ Datum.parse d.render = .ok d' ∧ d'.bare = d.bare := by
  have h : (Datum.parse ledger).toOption.map strings = some ["a\tb"] := by decide +kernel
  obtain ⟨d, hd, hs⟩ := Partial.eq_ok_of_toOption_map h
  have hplain : ∀ s ∈ d.strings, ∀ c ∈ s.toList, isPlain c = true := by
    have hall : ["a\tb"].all (fun s => s.toList.all isPlain) = true := by decide +kernel
    rw [hs]
    simpa only [List.all_eq_true] using hall
  obtain ⟨d', hread, hbare⟩ := parse_render hd hplain
  exact ⟨d, d', hd, hread, hbare⟩

end WhileStack.Datum
