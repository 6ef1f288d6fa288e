import WhileStack.Datum.Reader
import WhileStack.Proofs.Exec

/-! The grammar of data over tokens. The reader accepts exactly what it derives, and gives the datum that is derived. -/
namespace WhileStack.Datum
open WhileStack.Text

mutual

/-- The tokens spell the datum. -/
inductive Spells : List Token → Datum → Prop
  | symbol (p : Pos) (s : String) : Spells [⟨.symbol s, p⟩] (.symbol p s)
  | string (p : Pos) (s : String) : Spells [⟨.string s, p⟩] (.string p s)
  | integer (p : Pos) {s : String} {n : Int} (h : readInt64? s.toList = some n) :
      Spells [⟨.integer s, p⟩] (.integer p s n)
  | list (p q : Pos) {ts : List Token} {items : List Datum} {notes : List (String × Datum)}
      (h : SpellsItems ts items notes) :
      Spells (⟨.lparen, p⟩ :: (ts ++ [⟨.rparen, q⟩])) (.list p items (addNotes [] notes))
  | map (p q : Pos) {ts : List Token} {entries : List (String × Datum)} (h : SpellsEntries ts entries) :
      Spells (⟨.lbrace, p⟩ :: (ts ++ [⟨.rbrace, q⟩])) (.map p entries)

/-- The tokens spell the items of a list and the notes among them. -/
inductive SpellsItems : List Token → List Datum → List (String × Datum) → Prop
  | nil : SpellsItems [] [] []
  | item {ts us : List Token} {d : Datum} {items : List Datum} {notes : List (String × Datum)} (h : Spells ts d)
      (hs : SpellsItems us items notes) : SpellsItems (ts ++ us) (d :: items) notes
  | notes (p q r : Pos) {ts us : List Token} {entries notes : List (String × Datum)} {items : List Datum}
      (h : SpellsEntries ts entries) (hs : SpellsItems us items notes) :
      SpellsItems (⟨.caret, p⟩ :: ⟨.lbrace, q⟩ :: (ts ++ ⟨.rbrace, r⟩ :: us)) items (entries ++ notes)

/-- The tokens spell the entries of a map. A comma may stand behind the last. -/
inductive SpellsEntries : List Token → List (String × Datum) → Prop
  | nil : SpellsEntries [] []
  | last (p q : Pos) (k : String) {ts : List Token} {d : Datum} (h : Spells ts d) :
      SpellsEntries (⟨.symbol k, p⟩ :: ⟨.colon, q⟩ :: ts) [(k, d)]
  | more (p q r : Pos) (k : String) {ts us : List Token} {d : Datum} {entries : List (String × Datum)}
      (h : Spells ts d) (hs : SpellsEntries us entries) :
      SpellsEntries (⟨.symbol k, p⟩ :: ⟨.colon, q⟩ :: (ts ++ ⟨.comma, r⟩ :: us)) ((k, d) :: entries)

end

/-- What one call of each part of the reader may take, given the calls it makes. -/
private structure Sound (n : Nat) : Prop where
  datum : ∀ {ts d rest}, readDatum n ts = .ok (d, rest) → ∃ us, ts = us ++ rest ∧ Spells us d
  items : ∀ {ts items notes rest}, readItems n ts = .ok ((items, notes), rest) →
    ∃ us q, ts = us ++ ⟨.rparen, q⟩ :: rest ∧ SpellsItems us items notes
  entries : ∀ {ts entries rest}, readEntries n ts = .ok (entries, rest) →
    ∃ us q, ts = us ++ ⟨.rbrace, q⟩ :: rest ∧ SpellsEntries us entries

private theorem Sound.readDatum {n : Nat} (ih : Sound n) {ts rest : List Token} {d : Datum}
    (h : readDatum (n + 1) ts = .ok (d, rest)) : ∃ us, ts = us ++ rest ∧ Spells us d := by
  cases ts with
  | nil => cases h
  | cons t ts =>
    obtain ⟨l, p⟩ := t
    cases l with
    | symbol s =>
      cases h
      exact ⟨_, rfl, .symbol p s⟩
    | string s =>
      cases h
      exact ⟨_, rfl, .string p s⟩
    | integer s =>
      simp only [Datum.readDatum] at h
      split at h
      · rename_i n hn
        cases h
        exact ⟨_, rfl, .integer p hn⟩
      · cases h
    | lparen =>
      simp only [Datum.readDatum] at h
      obtain ⟨⟨⟨items, notes⟩, rest'⟩, hi, h⟩ := Partial.then_eq_ok.mp h
      cases h
      obtain ⟨us, q, rfl, hs⟩ := ih.items hi
      exact ⟨_, by simp, .list p q hs⟩
    | lbrace =>
      simp only [Datum.readDatum] at h
      obtain ⟨⟨entries, rest'⟩, he, h⟩ := Partial.then_eq_ok.mp h
      cases h
      obtain ⟨us, q, rfl, hs⟩ := ih.entries he
      exact ⟨_, by simp, .map p q hs⟩
    | rparen | rbrace | colon | comma | caret => cases h

private theorem Sound.readItems {n : Nat} (ih : Sound n) {ts rest : List Token} {items : List Datum}
    {notes : List (String × Datum)} (h : readItems (n + 1) ts = .ok ((items, notes), rest)) :
    ∃ us q, ts = us ++ ⟨.rparen, q⟩ :: rest ∧ SpellsItems us items notes := by
  cases ts with
  | nil => cases h
  | cons t ts =>
    obtain ⟨l, p⟩ := t
    cases l with
    | rparen =>
      cases h
      exact ⟨[], p, rfl, .nil⟩
    | caret =>
      simp only [Datum.readItems] at h
      split at h
      · rename_i q ts
        obtain ⟨⟨entries, rest₁⟩, he, h⟩ := Partial.then_eq_ok.mp h
        obtain ⟨⟨⟨items', notes'⟩, rest₂⟩, hi, h⟩ := Partial.then_eq_ok.mp h
        cases h
        obtain ⟨us, r, rfl, hs⟩ := ih.entries he
        obtain ⟨vs, r', rfl, hs'⟩ := ih.items hi
        exact ⟨_, r', by simp, .notes p q r hs hs'⟩
      · cases h
    | symbol | string | integer | lparen | rbrace | lbrace | colon | comma =>
      simp only [Datum.readItems] at h
      obtain ⟨⟨d, rest₁⟩, hd, h⟩ := Partial.then_eq_ok.mp h
      obtain ⟨⟨⟨items', notes'⟩, rest₂⟩, hi, h⟩ := Partial.then_eq_ok.mp h
      cases h
      obtain ⟨us, hus, hs⟩ := ih.datum hd
      obtain ⟨vs, r, rfl, hs'⟩ := ih.items hi
      exact ⟨us ++ vs, r, by simp [hus], .item hs hs'⟩

private theorem Sound.readEntries {n : Nat} (ih : Sound n) {ts rest : List Token} {entries : List (String × Datum)}
    (h : readEntries (n + 1) ts = .ok (entries, rest)) :
    ∃ us q, ts = us ++ ⟨.rbrace, q⟩ :: rest ∧ SpellsEntries us entries := by
  cases ts with
  | nil => cases h
  | cons t ts =>
    obtain ⟨l, p⟩ := t
    cases l with
    | rbrace =>
      cases h
      exact ⟨[], p, rfl, .nil⟩
    | symbol k =>
      simp only [Datum.readEntries] at h
      split at h
      · rename_i q ts
        obtain ⟨⟨d, rest₁⟩, hd, hr⟩ := Partial.then_eq_ok.mp h
        obtain ⟨us, rfl, hs⟩ := ih.datum hd
        dsimp only at hr
        split at hr
        · rename_i r ts
          obtain ⟨⟨entries', rest₂⟩, he, hr⟩ := Partial.then_eq_ok.mp hr
          cases hr
          obtain ⟨vs, r', rfl, hs'⟩ := ih.entries he
          exact ⟨_, r', by simp, .more p q r k hs hs'⟩
        · rename_i r ts
          cases hr
          exact ⟨_, r, by simp, .last p q k hs⟩
        · cases hr
      · cases h
    | string | integer | lparen | rparen | lbrace | colon | comma | caret => cases h

private theorem sound (n : Nat) : Sound n := by
  induction n with
  | zero => exact ⟨nofun, nofun, nofun⟩
  | succ n ih => exact ⟨ih.readDatum, ih.readItems, ih.readEntries⟩

section
variable {n : Nat} {ts rest : List Token}

theorem readDatum_spells {d : Datum} (h : readDatum n ts = .ok (d, rest)) : ∃ us, ts = us ++ rest ∧ Spells us d :=
  (sound n).datum h

theorem readEntries_spells {entries : List (String × Datum)} (h : readEntries n ts = .ok (entries, rest)) :
    ∃ us q, ts = us ++ ⟨.rbrace, q⟩ :: rest ∧ SpellsEntries us entries :=
  (sound n).entries h

end

/-- A datum starts with an atom or an opening bracket. -/
theorem Spells.head {ts : List Token} {d : Datum} (h : Spells ts d) :
    ∃ l p us, ts = ⟨l, p⟩ :: us ∧ l ≠ .rparen ∧ l ≠ .caret := by
  cases h <;> exact ⟨_, _, _, rfl, nofun, nofun⟩

private theorem readItems_item {l : Lexeme} (h : l ≠ .rparen) (h' : l ≠ .caret) (n : Nat) (p : Pos) (ts : List Token) :
    readItems (n + 1) (⟨l, p⟩ :: ts) = (do
      let (item, ts) ← readDatum n (⟨l, p⟩ :: ts)
      let ((items, notes), ts) ← readItems n ts
      .ok ((item :: items, notes), ts)) := by
  cases l <;> first | rfl | contradiction

-- Each call that takes no token makes one that does, so twice the number of tokens is enough.
mutual

private theorem Spells.read : ∀ {ts : List Token} {d : Datum}, Spells ts d → ∀ {n : Nat} (rest : List Token),
    2 * ts.length ≤ n → readDatum n (ts ++ rest) = .ok (d, rest)
  | _, _, .symbol p s, n + 1, rest, _ => rfl
  | _, _, .string p s, n + 1, rest, _ => rfl
  | _, _, .integer p h, n + 1, rest, _ => by simp [readDatum, h]
  | _, _, @Spells.list p q ts items notes h, n + 1, rest, hn => by
    have hi := h.read q rest (n := n) (by simp at hn; omega)
    simp [readDatum, hi, Partial.ok_then]
  | _, _, @Spells.map p q ts entries h, n + 1, rest, hn => by
    have he := h.read q rest (n := n) (by simp at hn; omega)
    simp [readDatum, he, Partial.ok_then]
  | _, _, h, 0, rest, hn => by
    obtain ⟨l, p, us, rfl, -⟩ := h.head
    simp at hn

private theorem SpellsItems.read : ∀ {ts : List Token} {items : List Datum} {notes : List (String × Datum)},
    SpellsItems ts items notes → ∀ {n : Nat} (q : Pos) (rest : List Token), 2 * ts.length < n →
    readItems n (ts ++ ⟨.rparen, q⟩ :: rest) = .ok ((items, notes), rest)
  | _, _, _, _, 0, q, rest, hn => by omega
  | _, _, _, .nil, n + 1, q, rest, _ => rfl
  | _, _, _, @SpellsItems.item ts us d items notes h hs, n + 1, q, rest, hn => by
    rw [List.length_append] at hn
    have hd := h.read (us ++ ⟨.rparen, q⟩ :: rest) (n := n) (by omega)
    obtain ⟨l, p, vs, rfl, hl, hl'⟩ := h.head
    have hi := hs.read q rest (n := n) (by simp at hn; omega)
    rw [List.append_assoc, List.cons_append, readItems_item hl hl', ← List.cons_append, hd]
    simp [hi, Partial.ok_then]
  | _, _, _, @SpellsItems.notes p q' r ts us entries notes items h hs, n + 1, q, rest, hn => by
    have he := h.read r (us ++ ⟨.rparen, q⟩ :: rest) (n := n) (by simp at hn; omega)
    have hi := hs.read q rest (n := n) (by simp at hn; omega)
    simp [readItems, he, hi, Partial.ok_then]

private theorem SpellsEntries.read : ∀ {ts : List Token} {entries : List (String × Datum)}, SpellsEntries ts entries →
    ∀ {n : Nat} (q : Pos) (rest : List Token), 2 * ts.length < n →
    readEntries n (ts ++ ⟨.rbrace, q⟩ :: rest) = .ok (entries, rest)
  | _, _, _, 0, q, rest, hn => by omega
  | _, _, .nil, n + 1, q, rest, _ => rfl
  | _, _, @SpellsEntries.last p q' k ts d h, n + 1, q, rest, hn => by
    have hd := h.read (⟨.rbrace, q⟩ :: rest) (n := n) (by simp at hn; omega)
    simp [readEntries, hd, Partial.ok_then]
  | _, _, @SpellsEntries.more p q' r k ts us d entries h hs, n + 1, q, rest, hn => by
    have hd := h.read (⟨.comma, r⟩ :: (us ++ ⟨.rbrace, q⟩ :: rest)) (n := n) (by simp at hn; omega)
    have he := hs.read q rest (n := n) (by simp at hn; omega)
    simp [readEntries, hd, he, Partial.ok_then]

end

/-- The reader gives a datum if and only if the tokens spell it. -/
theorem readAll_eq_ok_iff {ts : List Token} {d : Datum} : readAll ts = .ok d ↔ Spells ts d := by
  constructor
  · intro h
    obtain ⟨⟨d', rest⟩, hd, h⟩ := Partial.then_eq_ok.mp h
    dsimp only at h
    split at h
    · rename_i hr
      cases h
      obtain ⟨us, rfl, hs⟩ := readDatum_spells hd
      rw [List.isEmpty_iff.mp hr, List.append_nil]
      exact hs
    · cases h
  · intro h
    have hd := h.read [] (n := 2 * ts.length + 2) (by omega)
    rw [List.append_nil] at hd
    simp [readAll, hd, Partial.ok_then]

/-- A text gives a datum if and only if all of it is tokens, and they spell the datum. -/
theorem parse_eq_ok_iff {text : String} {d : Datum} :
    parse text = .ok d ↔ Spells (lex text.toList).tokens d ∧ ∃ p, (lex text.toList).ending = .finished p := by
  rw [parse, ofChars, ofLexed, ← readAll_eq_ok_iff]
  cases readAll (lex text.toList).tokens with
  | ok d' => cases (lex text.toList).ending <;> simp
  | error r =>
    cases (lex text.toList).ending with
    | finished p => simp
    | failed e p =>
      dsimp only
      split <;> simp

end WhileStack.Datum
