import WhileStack.Proofs.Datum.Integer
import WhileStack.Proofs.Datum.Refusal

/-! Derivations of data. A form says how tokens make up one datum. No two forms have the same tokens, and the reader
accepts the tokens of forms only, each with the datum that its form derives.

    datum   = symbol | string | integer | '(' parts ')' | '\x7b' entries '\x7d'
    parts   = nothing | datum parts | '^' '\x7b' entries '\x7d' parts
    entries = nothing | symbol ':' datum | symbol ':' datum ',' entries

An integer is one of 64 bits in decimal notation. -/
namespace WhileStack.Datum
open WhileStack.Text

mutual

inductive Form where
  | symbol (p : Pos) (text : String)
  | string (p : Pos) (contents : String)
  | integer (p : Pos) (text : String) (value : Int) (h : Notates64 text.toList value)
  | list (p q : Pos) (parts : Parts)
  | map (p q : Pos) (entries : Entries)

inductive Parts where
  | nil
  | item (f : Form) (rest : Parts)
  | noted (p q r : Pos) (entries : Entries) (rest : Parts)

inductive Entries where
  | nil
  | last (p q : Pos) (key : String) (value : Form)
  | more (p q r : Pos) (key : String) (value : Form) (rest : Entries)

end

/-- Every name once, where it comes first, with the value that it is given last. -/
def merge : List (String × Datum) → List (String × Datum)
  | [] => []
  | (k, v) :: rest => (k, (rest.reverse.lookup k).getD v) :: (merge rest).filter fun e => e.1 ≠ k

mutual

/-- The tokens of a form, from the first to the last. -/
def Form.tokens : Form → List Token
  | .symbol p s => [⟨.symbol s, p⟩]
  | .string p s => [⟨.string s, p⟩]
  | .integer p s _ _ => [⟨.integer s, p⟩]
  | .list p q parts => ⟨.lparen, p⟩ :: (parts.tokens ++ [⟨.rparen, q⟩])
  | .map p q entries => ⟨.lbrace, p⟩ :: (entries.tokens ++ [⟨.rbrace, q⟩])

def Parts.tokens : Parts → List Token
  | .nil => []
  | .item f rest => f.tokens ++ rest.tokens
  | .noted p q r entries rest => ⟨.caret, p⟩ :: ⟨.lbrace, q⟩ :: (entries.tokens ++ ⟨.rbrace, r⟩ :: rest.tokens)

def Entries.tokens : Entries → List Token
  | .nil => []
  | .last p q k f => ⟨.symbol k, p⟩ :: ⟨.colon, q⟩ :: f.tokens
  | .more p q r k f rest => ⟨.symbol k, p⟩ :: ⟨.colon, q⟩ :: (f.tokens ++ ⟨.comma, r⟩ :: rest.tokens)

end

mutual

/-- The datum that a form derives. -/
def Form.datum : Form → Datum
  | .symbol p s => .symbol p s
  | .string p s => .string p s
  | .integer p s n _ => .integer p s n
  | .list p _ parts => .list p parts.items (merge parts.notes)
  | .map p _ entries => .map p entries.data

def Parts.items : Parts → List Datum
  | .nil => []
  | .item f rest => f.datum :: rest.items
  | .noted _ _ _ _ rest => rest.items

/-- What the note maps of a list hold, one map after the other. -/
def Parts.notes : Parts → List (String × Datum)
  | .nil => []
  | .item _ rest => rest.notes
  | .noted _ _ _ entries rest => entries.data ++ rest.notes

def Entries.data : Entries → List (String × Datum)
  | .nil => []
  | .last _ _ k f => [(k, f.datum)]
  | .more _ _ _ k f rest => (k, f.datum) :: rest.data

end

/-! ### No two forms have the same tokens -/

private theorem Form.head (f : Form) : ∃ l p us, f.tokens = ⟨l, p⟩ :: us ∧ l ≠ .rparen ∧ l ≠ .caret := by
  cases f <;> rw [Form.tokens] <;> exact ⟨_, _, _, rfl, nofun, nofun⟩

private theorem Form.tokens_ne {f : Form} {l : Lexeme} {p : Pos} {us ts : List Token} (hl : l = .rparen ∨ l = .caret) :
    f.tokens ++ ts ≠ ⟨l, p⟩ :: us := by
  obtain ⟨l', p', vs, hf, h₁, h₂⟩ := f.head
  rw [hf]
  rintro ⟨⟩
  rcases hl with h | h
  · exact h₁ h
  · exact h₂ h

-- The tokens behind a form are kept in view: the form in front must end at the same place in both.
mutual

private theorem Form.tokens_inj : ∀ (f g : Form) {r s : List Token}, f.tokens ++ r = g.tokens ++ s → f = g ∧ r = s
  | .symbol p a, g, r, s, h => by cases g <;> simp_all [Form.tokens]
  | .string p a, g, r, s, h => by cases g <;> simp_all [Form.tokens]
  | .integer p a n ha, g, r, s, h => by
    cases g with
    | integer q b m hb =>
      simp only [Form.tokens, List.singleton_append, List.cons.injEq, Token.mk.injEq, Lexeme.integer.injEq] at h
      obtain ⟨⟨rfl, rfl⟩, rfl⟩ := h
      cases ha.unique hb
      exact ⟨rfl, rfl⟩
    | _ => simp [Form.tokens] at h
  | .list p q a, g, r, s, h => by
    cases g with
    | list p' q' b =>
      simp only [Form.tokens, List.cons_append, List.append_assoc, List.nil_append, List.cons.injEq, Token.mk.injEq,
        true_and] at h
      obtain ⟨rfl, h⟩ := h
      obtain ⟨rfl, rfl, rfl⟩ := a.tokens_inj b h
      exact ⟨rfl, rfl⟩
    | _ => simp [Form.tokens] at h
  | .map p q a, g, r, s, h => by
    cases g with
    | map p' q' b =>
      simp only [Form.tokens, List.cons_append, List.append_assoc, List.nil_append, List.cons.injEq, Token.mk.injEq,
        true_and] at h
      obtain ⟨rfl, h⟩ := h
      obtain ⟨rfl, rfl, rfl⟩ := a.tokens_inj b h
      exact ⟨rfl, rfl⟩
    | _ => simp [Form.tokens] at h

private theorem Parts.tokens_inj : ∀ (a b : Parts) {p q : Pos} {r s : List Token},
    a.tokens ++ ⟨.rparen, p⟩ :: r = b.tokens ++ ⟨.rparen, q⟩ :: s → a = b ∧ p = q ∧ r = s
  | .nil, .nil, p, q, r, s, h => by simpa [Parts.tokens] using h
  | .nil, .item g b, p, q, r, s, h => by
    rw [Parts.tokens, Parts.tokens, List.append_assoc] at h
    exact absurd h.symm (g.tokens_ne (.inl rfl))
  | .nil, .noted .., p, q, r, s, h => by simp [Parts.tokens] at h
  | .item f a, .nil, p, q, r, s, h => by
    rw [Parts.tokens, Parts.tokens, List.append_assoc] at h
    exact absurd h (f.tokens_ne (.inl rfl))
  | .item f a, .item g b, p, q, r, s, h => by
    rw [Parts.tokens, Parts.tokens, List.append_assoc, List.append_assoc] at h
    obtain ⟨rfl, h'⟩ := f.tokens_inj g h
    obtain ⟨rfl, rfl, rfl⟩ := a.tokens_inj b h'
    exact ⟨rfl, rfl, rfl⟩
  | .item f a, .noted .., p, q, r, s, h => by
    rw [Parts.tokens, Parts.tokens, List.append_assoc] at h
    exact absurd h (f.tokens_ne (.inr rfl))
  | .noted .., .nil, p, q, r, s, h => by simp [Parts.tokens] at h
  | .noted .., .item g b, p, q, r, s, h => by
    rw [Parts.tokens, Parts.tokens, List.append_assoc] at h
    exact absurd h.symm (g.tokens_ne (.inr rfl))
  | .noted p₁ p₂ p₃ e a, .noted q₁ q₂ q₃ e' b, p, q, r, s, h => by
    simp only [Parts.tokens, List.cons_append, List.append_assoc, List.cons.injEq, Token.mk.injEq, true_and] at h
    obtain ⟨rfl, rfl, h⟩ := h
    obtain ⟨rfl, rfl, h'⟩ := e.tokens_inj e' h
    obtain ⟨rfl, rfl, rfl⟩ := a.tokens_inj b h'
    exact ⟨rfl, rfl, rfl⟩

private theorem Entries.tokens_inj : ∀ (a b : Entries) {p q : Pos} {r s : List Token},
    a.tokens ++ ⟨.rbrace, p⟩ :: r = b.tokens ++ ⟨.rbrace, q⟩ :: s → a = b ∧ p = q ∧ r = s
  | .nil, .nil, p, q, r, s, h => by simpa [Entries.tokens] using h
  | .nil, .last .., p, q, r, s, h => by simp [Entries.tokens] at h
  | .nil, .more .., p, q, r, s, h => by simp [Entries.tokens] at h
  | .last .., .nil, p, q, r, s, h => by simp [Entries.tokens] at h
  | .more .., .nil, p, q, r, s, h => by simp [Entries.tokens] at h
  | .last p₁ p₂ k f, .last q₁ q₂ k' g, p, q, r, s, h => by
    simp only [Entries.tokens, List.cons_append, List.cons.injEq, Token.mk.injEq, Lexeme.symbol.injEq, true_and] at h
    obtain ⟨⟨rfl, rfl⟩, rfl, h⟩ := h
    obtain ⟨rfl, h'⟩ := f.tokens_inj g h
    cases h'
    exact ⟨rfl, rfl, rfl⟩
  | .last p₁ p₂ k f, .more q₁ q₂ q₃ k' g b, p, q, r, s, h => by
    simp only [Entries.tokens, List.cons_append, List.append_assoc, List.cons.injEq] at h
    obtain ⟨-, h⟩ := f.tokens_inj g h.2.2
    cases h
  | .more p₁ p₂ p₃ k f a, .last q₁ q₂ k' g, p, q, r, s, h => by
    simp only [Entries.tokens, List.cons_append, List.append_assoc, List.cons.injEq] at h
    obtain ⟨-, h⟩ := f.tokens_inj g h.2.2
    cases h
  | .more p₁ p₂ p₃ k f a, .more q₁ q₂ q₃ k' g b, p, q, r, s, h => by
    simp only [Entries.tokens, List.cons_append, List.append_assoc, List.cons.injEq, Token.mk.injEq,
      Lexeme.symbol.injEq, true_and] at h
    obtain ⟨⟨rfl, rfl⟩, rfl, h⟩ := h
    obtain ⟨rfl, h'⟩ := f.tokens_inj g h
    simp only [List.cons.injEq, Token.mk.injEq, true_and] at h'
    obtain ⟨rfl, h'⟩ := h'
    obtain ⟨rfl, rfl, rfl⟩ := a.tokens_inj b h'
    exact ⟨rfl, rfl, rfl⟩

end

theorem Form.eq_of_tokens_eq {f g : Form} (h : f.tokens = g.tokens) : f = g := by
  have h' : f.tokens ++ [] = g.tokens ++ [] := by rw [h]
  exact (f.tokens_inj g h').1

/-! ### Notes -/

private theorem filter_addNote (notes : List (String × Datum)) (k x : String) (v : Datum) :
    (addNote notes k v).filter (fun e => e.1 ≠ x) =
      if k = x then notes.filter (fun e => e.1 ≠ x) else addNote (notes.filter fun e => e.1 ≠ x) k v := by
  induction notes with
  | nil => by_cases hx : k = x <;> simp [addNote, hx]
  | cons e rest ih =>
    obtain ⟨k', v'⟩ := e
    by_cases hk : k' = k <;> by_cases hx : k = x <;> by_cases hx' : k' = x <;> simp_all [addNote]

private theorem merge_concat (es : List (String × Datum)) (k : String) (v : Datum) :
    merge (es ++ [(k, v)]) = addNote (merge es) k v := by
  induction es with
  | nil => rfl
  | cons e es ih =>
    obtain ⟨k', v'⟩ := e
    rw [List.cons_append, merge, merge, ih, filter_addNote, List.reverse_concat, List.lookup_cons]
    by_cases hk : k = k'
    · subst hk
      simp [addNote]
    · have hk' : (k' == k) = false := by simpa using fun h => hk h.symm
      simp [addNote, hk, hk', Ne.symm hk]

private theorem addNotes_merge (es fs : List (String × Datum)) : addNotes (merge es) fs = merge (es ++ fs) := by
  induction fs generalizing es with
  | nil => rw [List.append_nil, addNotes, List.foldl_nil]
  | cons e fs ih => rw [List.append_cons, ← ih, merge_concat, addNotes, List.foldl_cons, addNotes]

/-! ### The reader and the forms -/

mutual

private theorem Form.spells : ∀ f : Form, Spells f.tokens f.datum
  | .symbol p s => by
    rw [Form.tokens, Form.datum]
    exact .symbol p s
  | .string p s => by
    rw [Form.tokens, Form.datum]
    exact .string p s
  | .integer p s n h => by
    rw [Form.tokens, Form.datum]
    exact .integer p (readInt64?_eq_some_iff.mpr h)
  | .list p q a => by
    rw [Form.tokens, Form.datum, show merge a.notes = addNotes [] a.notes from (addNotes_merge [] _).symm]
    exact .list p q a.spells
  | .map p q a => by
    rw [Form.tokens, Form.datum]
    exact .map p q a.spells

private theorem Parts.spells : ∀ a : Parts, SpellsItems a.tokens a.items a.notes
  | .nil => .nil
  | .item f a => by
    rw [Parts.tokens, Parts.items, Parts.notes]
    exact .item f.spells a.spells
  | .noted p q r e a => by
    rw [Parts.tokens, Parts.items, Parts.notes]
    exact .notes p q r e.spells a.spells

private theorem Entries.spells : ∀ a : Entries, SpellsEntries a.tokens a.data
  | .nil => .nil
  | .last p q k f => by
    rw [Entries.tokens, Entries.data]
    exact .last p q k f.spells
  | .more p q r k f a => by
    rw [Entries.tokens, Entries.data]
    exact .more p q r k f.spells a.spells

end

mutual

private theorem Spells.form : ∀ {ts : List Token} {d : Datum}, Spells ts d → ∃ f : Form, f.tokens = ts ∧ f.datum = d
  | _, _, .symbol p s => ⟨.symbol p s, by rw [Form.tokens], by rw [Form.datum]⟩
  | _, _, .string p s => ⟨.string p s, by rw [Form.tokens], by rw [Form.datum]⟩
  | _, _, .integer p h => ⟨.integer p _ _ (readInt64?_eq_some_iff.mp h), by rw [Form.tokens], by rw [Form.datum]⟩
  | _, _, .list p q h => by
    obtain ⟨a, rfl, rfl, rfl⟩ := h.parts
    exact ⟨.list p q a, by rw [Form.tokens], by rw [Form.datum]; exact congrArg _ (addNotes_merge [] _).symm⟩
  | _, _, .map p q h => by
    obtain ⟨a, rfl, rfl⟩ := h.form
    exact ⟨.map p q a, by rw [Form.tokens], by rw [Form.datum]⟩

private theorem SpellsItems.parts : ∀ {ts : List Token} {items : List Datum} {notes : List (String × Datum)},
    SpellsItems ts items notes → ∃ a : Parts, a.tokens = ts ∧ a.items = items ∧ a.notes = notes
  | _, _, _, .nil => ⟨.nil, by rw [Parts.tokens], by rw [Parts.items], by rw [Parts.notes]⟩
  | _, _, _, .item h hs => by
    obtain ⟨f, rfl, rfl⟩ := h.form
    obtain ⟨a, rfl, rfl, rfl⟩ := hs.parts
    exact ⟨.item f a, by rw [Parts.tokens], by rw [Parts.items], by rw [Parts.notes]⟩
  | _, _, _, .notes p q r h hs => by
    obtain ⟨e, rfl, rfl⟩ := h.form
    obtain ⟨a, rfl, rfl, rfl⟩ := hs.parts
    exact ⟨.noted p q r e a, by rw [Parts.tokens], by rw [Parts.items], by rw [Parts.notes]⟩

private theorem SpellsEntries.form : ∀ {ts : List Token} {es : List (String × Datum)},
    SpellsEntries ts es → ∃ a : Entries, a.tokens = ts ∧ a.data = es
  | _, _, .nil => ⟨.nil, by rw [Entries.tokens], by rw [Entries.data]⟩
  | _, _, .last p q k h => by
    obtain ⟨f, rfl, rfl⟩ := h.form
    exact ⟨.last p q k f, by rw [Entries.tokens], by rw [Entries.data]⟩
  | _, _, .more p q r k h hs => by
    obtain ⟨f, rfl, rfl⟩ := h.form
    obtain ⟨a, rfl, rfl⟩ := hs.form
    exact ⟨.more p q r k f a, by rw [Entries.tokens], by rw [Entries.data]⟩

end

theorem spells_iff_form {ts : List Token} {d : Datum} : Spells ts d ↔ ∃ f : Form, f.tokens = ts ∧ f.datum = d := by
  constructor
  · exact Spells.form
  · rintro ⟨f, rfl, rfl⟩
    exact f.spells

theorem readAll_eq_ok_iff_form {ts : List Token} {d : Datum} :
    readAll ts = .ok d ↔ ∃ f : Form, f.tokens = ts ∧ f.datum = d :=
  readAll_eq_ok_iff.trans spells_iff_form

private theorem parse_eq {text : String} {p : Pos} (h : (lex text.toList).ending = .finished p) :
    parse text = (readAll (lex text.toList).tokens).mapError (·.toSyntaxError (.finished p)) := by
  rw [parse, ofChars, ofLexed, h]
  cases readAll (lex text.toList).tokens with
  | ok d => rfl
  | error r => rfl

/-- A text that is tokens throughout is accepted if and only if these are the tokens of a form. There is one such form
then, and the text gives its datum. If there is none, reading stops at one of the tokens or behind the last. -/
theorem parse_accepts_forms {text : String} {p : Pos} (h : (lex text.toList).ending = .finished p) :
    (∀ d, parse text = .ok d ↔ ∃ f : Form, f.tokens = (lex text.toList).tokens ∧ f.datum = d) ∧
    (∀ f g : Form, f.tokens = (lex text.toList).tokens → g.tokens = (lex text.toList).tokens → f = g) ∧
    ((∀ f : Form, f.tokens ≠ (lex text.toList).tokens) ↔
      ∃ r : Refusal, r.rest <:+ (lex text.toList).tokens ∧ parse text = .error (r.toSyntaxError (.finished p))) := by
  have hok (d : Datum) : parse text = .ok d ↔ ∃ f : Form, f.tokens = (lex text.toList).tokens ∧ f.datum = d := by
    rw [← readAll_eq_ok_iff_form, parse_eq h]
    cases readAll (lex text.toList).tokens <;> simp
  refine ⟨hok, fun f g hf hg => Form.eq_of_tokens_eq (hf.trans hg.symm), ?_, ?_⟩
  · intro hnone
    cases hr : readAll (lex text.toList).tokens with
    | ok d =>
      obtain ⟨f, hf, -⟩ := readAll_eq_ok_iff_form.mp hr
      exact absurd hf (hnone f)
    | error r =>
      refine ⟨r, readAll_refuses hr, ?_⟩
      rw [parse_eq h, hr, Partial.mapError_error]
  · rintro ⟨r, -, hr⟩ f hf
    have hd := (hok f.datum).mpr ⟨f, hf, rfl⟩
    rw [hr] at hd
    cases hd

private def notedText : String := "(a ^\x7bk: 1, m: \"x\"\x7d \x7bn: (b),\x7d ^\x7bm: -4,\x7d)"

private def notedForm : Form :=
  .list ⟨1, 1⟩ ⟨1, 39⟩ <|
    .item (.symbol ⟨1, 2⟩ "a") <|
    .noted ⟨1, 4⟩ ⟨1, 5⟩ ⟨1, 18⟩
      (.more ⟨1, 6⟩ ⟨1, 7⟩ ⟨1, 10⟩ "k" (.integer ⟨1, 9⟩ "1" 1 (readInt64?_eq_some_iff.mp (by decide +kernel))) <|
        .last ⟨1, 12⟩ ⟨1, 13⟩ "m" (.string ⟨1, 15⟩ "x")) <|
    .item (.map ⟨1, 20⟩ ⟨1, 28⟩ <|
      .more ⟨1, 21⟩ ⟨1, 22⟩ ⟨1, 27⟩ "n" (.list ⟨1, 24⟩ ⟨1, 26⟩ (.item (.symbol ⟨1, 25⟩ "b") .nil)) .nil) <|
    .noted ⟨1, 30⟩ ⟨1, 31⟩ ⟨1, 38⟩
      (.more ⟨1, 32⟩ ⟨1, 33⟩ ⟨1, 37⟩ "m" (.integer ⟨1, 35⟩ "-4" (-4) (readInt64?_eq_some_iff.mp (by decide +kernel)))
        .nil) <|
    .nil

theorem parse_accepts_forms_noted :
    (lex notedText.toList).ending = .finished ⟨1, 40⟩ ∧ notedForm.tokens = (lex notedText.toList).tokens ∧
      parse notedText = .ok (.list ⟨1, 1⟩
        [.symbol ⟨1, 2⟩ "a", .map ⟨1, 20⟩ [("n", .list ⟨1, 24⟩ [.symbol ⟨1, 25⟩ "b"] [])]]
        [("k", .integer ⟨1, 9⟩ "1" 1), ("m", .integer ⟨1, 35⟩ "-4" (-4))]) := by
  have hend : (lex notedText.toList).ending = .finished ⟨1, 40⟩ := by decide +kernel
  have htokens : notedForm.tokens = (lex notedText.toList).tokens := by decide +kernel
  exact ⟨hend, htokens, ((parse_accepts_forms hend).1 _).mpr ⟨notedForm, htokens, rfl⟩⟩

end WhileStack.Datum
