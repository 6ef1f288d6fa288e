import WhileStack.Datum.Printer
import WhileStack.Proofs.Datum.Grammar
import WhileStack.Proofs.Datum.Lexing

/-! String literals that are written and read again. The writer knows more escapes than the reader, so only some
characters come back. -/
namespace WhileStack.Datum
open WhileStack.Text

/-- The characters that the reader takes back as the writer leaves them. -/
def isPlain (c : Char) : Bool := c = '\n' || c = '\t' || isPrintable c

variable {p q : Pos} {c e x : Char} {cs rest : List Char}

theorem stringBody_close : stringBody p ('"' :: cs) = .ok ([], p.after '"', cs) := by
  rw [stringBody.eq_def]
  rfl

theorem stringBody_raw (hq : c ≠ '"') (h0 : c ≠ nul) (hb : c ≠ '\\') :
    stringBody p (c :: cs) = (stringBody (p.after c) cs).map fun (s, r) => (c :: s, r) := by
  rw [stringBody.eq_def]
  simp [hq, h0, hb]

theorem stringBody_escaped (h : unescape e = some x) :
    stringBody p ('\\' :: e :: cs) = (stringBody (p.past ['\\', e]) cs).map fun (s, r) => (x :: s, r) := by
  simp [stringBody, h, Pos.past, nul]

private theorem stringBody_refused (h : unescape e = none) :
    stringBody p ('\\' :: e :: cs) = .error (.badEscape e) := by
  simp [stringBody, h, nul]

private theorem stringBody_plain (h : isPlain c = true) (p : Pos) (cs : List Char) :
    stringBody p (escapeChar c ++ cs) =
      (stringBody (p.past (escapeChar c)) cs).map fun (s, r) => (c :: s, r) := by
  by_cases hq : c = '"' ∨ c = '\\'
  · have he : escapeChar c = ['\\', c] := by simp [escapeChar, hq]
    rw [he]
    exact stringBody_escaped (by simp [unescape, hq])
  · by_cases hp : isPrintable c = true
    · have he : escapeChar c = [c] := by simp [escapeChar, hq, hp]
      have h0 : c ≠ nul := by
        rintro rfl
        exact absurd hp (by decide)
      rw [he]
      exact stringBody_raw (not_or.mp hq).1 h0 (not_or.mp hq).2
    · simp only [isPlain, hp, Bool.or_false, Bool.or_eq_true, decide_eq_true_eq] at h
      rcases h with rfl | rfl
      · exact stringBody_escaped (by decide)
      · exact stringBody_escaped (by decide)

/-- A character that is not plain is written with an escape that the reader does not know. -/
private theorem escapeChar_not_plain (h : isPlain c = false) :
    ∃ e es, escapeChar c = '\\' :: e :: es ∧ unescape e = none := by
  simp only [isPlain, Bool.or_eq_false_iff, decide_eq_false_iff_not] at h
  obtain ⟨⟨hn, ht⟩, hp⟩ := h
  have hq : ¬(c = '"' ∨ c = '\\') := by
    rintro (rfl | rfl) <;> exact absurd hp (by decide)
  unfold escapeChar
  rw [if_neg hq, if_neg (by simp [hp])]
  unfold controlLetter
  split
  · rename_i l hl
    split at hl <;> cases hl
    · exact ⟨_, _, rfl, by decide⟩
    · exact ⟨_, _, rfl, by decide⟩
    · exact absurd (Char.toNat_inj.mp ‹c.toNat = 9›) ht
    · exact absurd (Char.toNat_inj.mp ‹c.toNat = 10›) hn
    · exact ⟨_, _, rfl, by decide⟩
    · exact ⟨_, _, rfl, by decide⟩
    · exact ⟨_, _, rfl, by decide⟩
  · repeat' split
    all_goals exact ⟨_, _, rfl, by decide⟩

private theorem stringBody_quoted {s : List Char} (h : s.all isPlain = true) (p : Pos) (rest : List Char) :
    stringBody p (s.flatMap escapeChar ++ '"' :: rest) = .ok (s, (p.past (s.flatMap escapeChar)).after '"', rest) := by
  induction s generalizing p with
  | nil => exact stringBody_close
  | cons c s ih =>
    rw [List.all_cons, Bool.and_eq_true] at h
    rw [List.flatMap_cons, List.append_assoc, stringBody_plain h.1, ih h.2]
    simp [Except.map, Pos.past]

private theorem stringBody_unquotable {s : List Char} (h : s.all isPlain = false) (p : Pos) (rest : List Char) :
    ∃ e, stringBody p (s.flatMap escapeChar ++ rest) = .error (.badEscape e) := by
  induction s generalizing p with
  | nil => cases h
  | cons c s ih =>
    rw [List.flatMap_cons, List.append_assoc]
    cases hc : isPlain c with
    | true =>
      simp only [List.all_cons, hc, Bool.true_and] at h
      obtain ⟨e, he⟩ := ih h (p.past (escapeChar c))
      rw [stringBody_plain hc, he]
      exact ⟨e, rfl⟩
    | false =>
      obtain ⟨e, es, hesc, hu⟩ := escapeChar_not_plain hc
      rw [hesc]
      exact ⟨e, stringBody_refused hu⟩

theorem Scans.string {s : String} (h : s.toList.all isPlain = true) (p : Pos) (rest : List Char) :
    ∃ q, Scans p ((quote s).toList ++ rest) [⟨.string s, p⟩] q rest := by
  have hb := stringBody_quoted h (p.after '"') rest
  obtain ⟨q, hl⟩ : ∃ q, lexeme p '"' (s.toList.flatMap escapeChar ++ '"' :: rest) = .ok (.string s, q, rest) := by
    simp [lexeme, markLexeme, hb, Except.map]
  refine ⟨q, ?_⟩
  rw [quote, String.toList_ofList, quoteChars, List.cons_append, List.append_assoc]
  exact Scans.token (by decide) (by decide) (by decide) hl

/-- A text that is cut into the tokens of a datum is read as that datum. -/
theorem parse_of_scans {text : String} {ts : List Token} {d : Datum} (h : Scans .start text.toList ts q [])
    (hd : Spells ts d) : Datum.parse text = .ok d := by
  have hl : lex text.toList = ⟨ts, .finished q⟩ := by
    have h : lex text.toList = ⟨ts ++ [], .finished q⟩ := h
    rw [h, List.append_nil]
  simp [Datum.parse, ofChars, ofLexed, hl, readAll_eq_ok_iff.mpr hd]

private theorem parse_plain {s : String} (p : Pos) (h : s.toList.all isPlain = true) :
    Datum.parse (Datum.string p s).render = .ok (.string .start s) := by
  obtain ⟨q, hs⟩ := Scans.string h .start []
  rw [List.append_nil] at hs
  exact parse_of_scans hs (.string .start s)

private theorem parse_not_plain {s : String} (p : Pos) (h : s.toList.all isPlain = false) :
    ∃ e, Datum.parse (Datum.string p s).render = .error ⟨.start, .lexical (.badEscape e)⟩ := by
  obtain ⟨e, he⟩ := stringBody_unquotable h (Pos.start.after '"') ['"']
  have hl : lexeme .start '"' (s.toList.flatMap escapeChar ++ ['"']) = .error (.badEscape e) := by
    simp [lexeme, markLexeme, he, Except.map]
  have hlex : lex (quote s).toList = ⟨[], .failed (.badEscape e) .start⟩ := by
    rw [quote, String.toList_ofList, quoteChars]
    refine (lexAt_cons (by decide) (by decide) (by decide)).trans ?_
    rw [hl]
  refine ⟨e, ?_⟩
  rw [render, Datum.parse, ofChars, hlex]
  rfl

/-- A literal is read as the string it was written for, or it is refused. -/
theorem literal_reads_back_iff (p : Pos) (s : String) :
    (Datum.parse (Datum.string p s).render = .ok (.string .start s) ↔ ∀ c ∈ s.toList, isPlain c = true) ∧
    ((∃ e, Datum.parse (Datum.string p s).render = .error ⟨.start, .lexical (.badEscape e)⟩) ↔
      ∃ c ∈ s.toList, isPlain c = false) := by
  cases h : s.toList.all isPlain with
  | true =>
    have hparse := parse_plain p h
    rw [List.all_eq_true] at h
    refine ⟨iff_of_true hparse h, iff_of_false ?_ ?_⟩
    · rintro ⟨e, he⟩
      rw [hparse] at he
      cases he
    · rintro ⟨c, hc, hp⟩
      rw [h c hc] at hp
      cases hp
  | false =>
    obtain ⟨e, he⟩ := parse_not_plain p h
    obtain ⟨c, hc, hp⟩ := List.all_eq_false.mp h
    refine ⟨iff_of_false ?_ ?_, iff_of_true ⟨e, he⟩ ⟨c, hc, by simpa using hp⟩⟩
    · rw [he]
      nofun
    · intro hall
      exact hp (hall c hc)

/-- U+0007 is read from a literal, and is refused where it has been written again. -/
theorem bell_not_read_back :
    Datum.parse (String.ofList ['"', '\x07', '"']) = .ok (.string .start (String.ofList ['\x07'])) ∧
    Datum.parse (Datum.string .start (String.ofList ['\x07'])).render = .error ⟨.start, .lexical (.badEscape 'a')⟩ := by
  simp only [Datum.parse, render, quote, String.toList_ofList]
  exact ⟨rfl, rfl⟩

end WhileStack.Datum
