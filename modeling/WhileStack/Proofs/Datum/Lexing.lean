import WhileStack.Datum.Token
import WhileStack.Proofs.Exec

/-! Texts cut into tokens piece by piece. What a piece gives depends on the text behind it only through the character
that follows. -/
namespace WhileStack.Datum
open WhileStack.Text

variable {p q r : Pos} {c : Char} {cs rest : List Char} {l : Lexeme}

private theorem skipGap_length (comment : Bool) (p : Pos) (cs : List Char) :
    (skipGap comment p cs).2.length ≤ cs.length := by
  induction cs generalizing comment p with
  | nil => cases comment <;> exact Nat.le_refl _
  | cons c cs ih =>
    cases comment <;> unfold skipGap
    · split
      · exact Nat.le_succ_of_le (ih ..)
      · split
        · exact Nat.le_succ_of_le (ih ..)
        · exact Nat.le_refl _
    · split
      · exact Nat.le_refl _
      · exact Nat.le_succ_of_le (ih ..)

private theorem stringBody_length {s : List Char} (h : stringBody p cs = .ok (s, q, rest)) :
    rest.length ≤ cs.length := by
  fun_induction stringBody p cs generalizing s with
  | case1 | case3 | case4 | case5 => cases h
  | case2 =>
    cases h
    simp
  | case6 p e cs x _ _ _ ih | case7 p c cs _ _ _ ih =>
    obtain ⟨⟨s', q', rest'⟩, hs, h⟩ := Partial.map_eq_ok.mp h
    cases h
    have := ih hs
    simp only [List.length_cons]
    omega

private theorem lexeme_length (h : lexeme p c cs = .ok (l, q, rest)) : rest.length ≤ cs.length := by
  unfold lexeme at h
  split at h
  · cases h
    exact Nat.le_refl _
  · split at h
    · obtain ⟨⟨s, q', rest'⟩, hs, h⟩ := Partial.map_eq_ok.mp h
      cases h
      exact stringBody_length hs
    · split at h
      · cases h
        exact (List.dropWhile_suffix _).length_le
      · split at h
        · cases h
          exact (List.dropWhile_suffix _).length_le
        · cases h

/-- More rounds than characters change nothing. -/
private theorem lexFrom_eq {m n : Nat} (hm : cs.length < m) (hn : cs.length < n) : lexFrom m p cs = lexFrom n p cs := by
  induction m generalizing n p cs with
  | zero => omega
  | succ m ih =>
    obtain ⟨n, rfl⟩ : ∃ k, n = k + 1 := ⟨n - 1, by omega⟩
    unfold lexFrom
    have hlen := skipGap_length false p cs
    split
    · rfl
    · rename_i q c rest hgap
      rw [hgap, List.length_cons] at hlen
      split
      · rfl
      · split
        · rfl
        · rename_i l q' rest' hl
          have := lexeme_length hl
          rw [ih (n := n) (by omega) (by omega)]

/-- The tokens of a text that starts at `p`. -/
def lexAt (p : Pos) (cs : List Char) : Lexed := lexFrom (cs.length + 1) p cs

/-- The step of the lexer at a character that starts a token. -/
theorem lexAt_cons (hb : isBlank c = false) (hc : c ≠ ';') (h0 : c ≠ nul) :
    lexAt p (c :: cs) = match lexeme p c cs with
      | .error e => ⟨[], .failed e p⟩
      | .ok (l, q, rest) => ⟨⟨l, p⟩ :: (lexAt q rest).tokens, (lexAt q rest).ending⟩ := by
  have hgap : skipGap false p (c :: cs) = (p, c :: cs) := by simp [skipGap, hb, hc]
  rw [lexAt, List.length_cons, lexFrom, hgap]
  simp only [h0, if_false]
  cases hl : lexeme p c cs with
  | error e => rfl
  | ok x =>
    obtain ⟨l, q, rest⟩ := x
    have hlen := lexeme_length hl
    have hrest : lexFrom (cs.length + 1) q rest = lexAt q rest := lexFrom_eq (by omega) (by omega)
    simp only [hrest]

/-- From `p` on a text gives some tokens, and then what the rest gives from `q` on. -/
def Scans (p : Pos) (cs : List Char) (ts : List Token) (q : Pos) (rest : List Char) : Prop :=
  lexAt p cs = ⟨ts ++ (lexAt q rest).tokens, (lexAt q rest).ending⟩

namespace Scans
variable {ts us : List Token} {cs' : List Char}

theorem refl : Scans p cs [] p cs := rfl

theorem trans (h : Scans p cs ts q cs') (h' : Scans q cs' us r rest) : Scans p cs (ts ++ us) r rest := by
  unfold Scans at *
  rw [h, h', List.append_assoc]

/-- What is passed over gives no token. -/
theorem skipped (h : skipGap false p cs = skipGap false q cs') (hlen : cs'.length ≤ cs.length) : Scans p cs [] q cs' := by
  have hfrom : lexFrom (cs.length + 1) p cs = lexFrom (cs.length + 1) q cs' := by rw [lexFrom, lexFrom, h]
  exact hfrom.trans (lexFrom_eq (by omega) (by omega))

theorem blank (h : isBlank c = true) : Scans p (c :: cs) [] (p.after c) cs :=
  skipped (by simp [skipGap, h]) (Nat.le_succ _)

theorem token (hb : isBlank c = false) (hc : c ≠ ';') (h0 : c ≠ nul) (h : lexeme p c cs = .ok (l, q, rest)) :
    Scans p (c :: cs) [⟨l, p⟩] q rest := by
  unfold Scans
  rw [lexAt_cons hb hc h0, h]
  rfl

theorem mark (h : markLexeme c = some l) : Scans p (c :: cs) [⟨l, p⟩] (p.after c) cs := by
  have hl : lexeme p c cs = .ok (l, p.after c, cs) := by simp [lexeme, h]
  unfold markLexeme at h
  split at h <;> first | exact token (by decide) (by decide) (by decide) hl | cases h

end Scans

/-- No symbol and no number goes on into the text. -/
def Stops (cs : List Char) : Prop := ∀ c ∈ cs.head?, isSymbolChar c = false

theorem Stops.cons (h : isSymbolChar c = false) : Stops (c :: cs) := by
  rintro _ ⟨⟩
  exact h

/-- The texts of symbols. -/
def isSymbolText : List Char → Bool
  | [] => false
  | c :: cs => !isBlank c && !startsInteger c cs && isSymbolChar c && cs.all isSymbolChar

/-- The texts of numbers. -/
def isNumberText : List Char → Bool
  | [] => false
  | c :: cs => !isBlank c && startsInteger c cs && cs.all isDecimal

theorem isSymbolChar_of_isDecimal (h : isDecimal c = true) : isSymbolChar c = true := by simp [isSymbolChar, h]

private theorem isSymbolChar_of_startsInteger (h : startsInteger c cs = true) : isSymbolChar c = true := by
  simp only [startsInteger, Bool.or_eq_true, Bool.and_eq_true, decide_eq_true_eq] at h
  rcases h with h | ⟨rfl | rfl, -⟩
  · exact isSymbolChar_of_isDecimal h
  · decide
  · decide

private theorem markLexeme_of_isSymbolChar (h : isSymbolChar c = true) : markLexeme c = none := by
  unfold markLexeme
  split <;> first | rfl | exact absurd h (by decide)

private theorem ne_of_isSymbolChar {d : Char} (hc : isSymbolChar c = true) (hd : isSymbolChar d = false) : c ≠ d := by
  rintro rfl
  rw [hc] at hd
  cases hd

/-- Only the next character tells a number from a symbol. -/
theorem startsInteger_takeWhile {P : Char → Bool} (h : ∀ c, isDecimal c = true → P c = true) (c : Char)
    (cs : List Char) : startsInteger c (cs.takeWhile P) = startsInteger c cs := by
  cases cs with
  | nil => rfl
  | cons d cs =>
    cases hd : P d with
    | true => simp [startsInteger, hd]
    | false =>
      have hi : isDecimal d = false := by
        rw [Bool.eq_false_iff]
        intro hi
        rw [h d hi] at hd
        cases hd
      simp [startsInteger, hd, hi]

private theorem Stops.not_isDecimal (h : Stops rest) : ∀ c ∈ rest.head?, isDecimal c = false := by
  intro c hc
  rw [Bool.eq_false_iff]
  intro hi
  exact ne_of_isSymbolChar (isSymbolChar_of_isDecimal hi) (h c hc) rfl

private theorem startsInteger_append (h : Stops rest) (c : Char) (cs : List Char) :
    startsInteger c (cs ++ rest) = startsInteger c cs := by
  cases cs with
  | cons d cs => rfl
  | nil =>
    cases rest with
    | nil => rfl
    | cons d rest => simp [startsInteger, h.not_isDecimal d rfl]

theorem takeWhile_append {P : Char → Bool} (hcs : cs.all P = true) (hrest : ∀ c ∈ rest.head?, P c = false) :
    (cs ++ rest).takeWhile P = cs ∧ (cs ++ rest).dropWhile P = rest := by
  rw [List.all_eq_true] at hcs
  rw [List.takeWhile_append_of_pos hcs, List.dropWhile_append_of_pos hcs]
  cases rest with
  | nil => simp
  | cons d rest => simp [hrest d rfl]

namespace Scans

theorem symbol {s : String} (h : isSymbolText s.toList = true) (hrest : Stops rest) :
    Scans p (s.toList ++ rest) [⟨.symbol s, p⟩] (p.past s.toList) rest := by
  have hs := String.ofList_toList (s := s)
  cases hcs : s.toList with
  | nil => simp [hcs, isSymbolText] at h
  | cons c cs =>
    rw [hcs] at h hs
    simp only [isSymbolText, Bool.and_eq_true, Bool.not_eq_true'] at h
    obtain ⟨⟨⟨hb, hi⟩, hc⟩, hall⟩ := h
    obtain ⟨htake, hdrop⟩ := takeWhile_append hall hrest
    have hi' := (startsInteger_append hrest c cs).trans hi
    have hq : c ≠ '"' := ne_of_isSymbolChar hc (by decide)
    have hl : lexeme p c (cs ++ rest) = .ok (.symbol s, p.past (c :: cs), rest) := by
      simp [lexeme, markLexeme_of_isSymbolChar hc, hq, hi', hc, htake, hdrop, hs]
    exact token hb (ne_of_isSymbolChar hc (by decide)) (ne_of_isSymbolChar hc (by decide)) hl

theorem integer {s : String} (h : isNumberText s.toList = true) (hrest : Stops rest) :
    Scans p (s.toList ++ rest) [⟨.integer s, p⟩] (p.past s.toList) rest := by
  have hs := String.ofList_toList (s := s)
  cases hcs : s.toList with
  | nil => simp [hcs, isNumberText] at h
  | cons c cs =>
    rw [hcs] at h hs
    simp only [isNumberText, Bool.and_eq_true, Bool.not_eq_true'] at h
    obtain ⟨⟨hb, hi⟩, hall⟩ := h
    have hc := isSymbolChar_of_startsInteger hi
    obtain ⟨htake, hdrop⟩ := takeWhile_append hall hrest.not_isDecimal
    have hi' := (startsInteger_append hrest c cs).trans hi
    have hq : c ≠ '"' := ne_of_isSymbolChar hc (by decide)
    have hl : lexeme p c (cs ++ rest) = .ok (.integer s, p.past (c :: cs), rest) := by
      simp [lexeme, markLexeme_of_isSymbolChar hc, hq, hi', htake, hdrop, hs]
    exact token hb (ne_of_isSymbolChar hc (by decide)) (ne_of_isSymbolChar hc (by decide)) hl

end Scans

/-- The symbols and numbers that a text can give. -/
def Lexeme.isWritten : Lexeme → Bool
  | .symbol s => isSymbolText s.toList
  | .integer s => isNumberText s.toList
  | _ => true

private theorem isWritten_of_markLexeme (h : markLexeme c = some l) : l.isWritten = true := by
  unfold markLexeme at h
  split at h <;> cases h <;> rfl

theorem lexeme_isWritten (hb : isBlank c = false) (h : lexeme p c cs = .ok (l, q, rest)) :
    l.isWritten = true := by
  unfold lexeme at h
  split at h
  · rename_i m hm
    cases h
    exact isWritten_of_markLexeme hm
  · split at h
    · obtain ⟨⟨s, r⟩, -, h⟩ := Partial.map_eq_ok.mp h
      cases h
      rfl
    · split at h
      · rename_i hi
        cases h
        rw [← startsInteger_takeWhile (fun _ => id)] at hi
        simp [Lexeme.isWritten, isNumberText, hb, hi, List.all_takeWhile]
      · rename_i hi
        split at h
        · rename_i hc
          cases h
          rw [← startsInteger_takeWhile (P := isSymbolChar) (fun _ => isSymbolChar_of_isDecimal)] at hi
          simp [Lexeme.isWritten, isSymbolText, hb, hi, hc, List.all_takeWhile]
        · cases h

/-- The first character behind a gap starts a token, or ends the text. -/
theorem skipGap_front {comment : Bool} (h : skipGap comment p cs = (q, c :: rest)) (h0 : c ≠ nul) :
    isBlank c = false := by
  induction cs generalizing comment p with
  | nil => cases comment <;> cases h
  | cons d cs ih =>
    cases comment <;> unfold skipGap at h
    · split at h
      · exact ih h
      · split at h
        · exact ih h
        · cases h
          simpa using ‹¬isBlank c = true›
    · split at h
      · cases h
        contradiction
      · exact ih h

/-- A text gives written tokens only. -/
theorem lexFrom_isWritten (n : Nat) (p : Pos) (cs : List Char) :
    ∀ t ∈ (lexFrom n p cs).tokens, t.lexeme.isWritten = true := by
  induction n generalizing p cs with
  | zero => nofun
  | succ n ih =>
    unfold lexFrom
    split
    · nofun
    · rename_i q c rest hgap
      split
      · nofun
      · rename_i h0
        split
        · nofun
        · rename_i l q' rest' hl
          intro t ht
          rcases List.mem_cons.mp ht with rfl | ht
          · exact lexeme_isWritten (skipGap_front hgap h0) hl
          · exact ih _ _ t ht

end WhileStack.Datum
