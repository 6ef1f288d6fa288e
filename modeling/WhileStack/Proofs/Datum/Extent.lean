import WhileStack.Proofs.Datum.Grammar
import WhileStack.Proofs.Datum.Lexing

/-! How far a text is read. An accepted text is gaps and the tokens of its datum, and behind the last token a gap again,
up to a U+0000 or the end of the text. What follows a U+0000 is not looked at. -/
namespace WhileStack.Datum
open WhileStack.Text

/-- Blanks and comments. The marks tell whether a comment is open in front of them and behind. -/
inductive Gap : Bool → List Char → Bool → Prop
  | nil (b : Bool) : Gap b [] b
  | blank {b : Bool} {c : Char} {cs : List Char} (hc : isBlank c = true) (h : Gap false cs b) : Gap false (c :: cs) b
  | opens {b : Bool} {cs : List Char} (h : Gap true cs b) : Gap false (';' :: cs) b
  | inside {b : Bool} {c : Char} {cs : List Char} (hc : c ≠ '\n') (h : Gap true cs b) : Gap true (c :: cs) b
  | closes {b : Bool} {cs : List Char} (h : Gap false cs b) : Gap true ('\n' :: cs) b

/-- What stands between the quotes of a string, with the contents that it stands for. -/
inductive Quotes : List Char → List Char → Prop
  | nil : Quotes [] []
  | raw {c : Char} {cs s : List Char} (hq : c ≠ '"') (hb : c ≠ '\\') (h0 : c ≠ nul) (h : Quotes cs s) :
    Quotes (c :: cs) (c :: s)
  | escape {e x : Char} {cs s : List Char} (he : unescape e = some x) (h : Quotes cs s) :
    Quotes ('\\' :: e :: cs) (x :: s)

/-- The characters that write a token. -/
inductive Writes : List Char → Lexeme → Prop
  | mark {c : Char} {l : Lexeme} (h : markLexeme c = some l) : Writes [c] l
  | symbol {s : String} (h : isSymbolText s.toList = true) : Writes s.toList (.symbol s)
  | integer {s : String} (h : isNumberText s.toList = true) : Writes s.toList (.integer s)
  | string {cs : List Char} {s : String} (h : Quotes cs s.toList) : Writes ('"' :: (cs ++ ['"'])) (.string s)

/-- The characters of some tokens with the gaps in front of them. They end with the last token. -/
inductive Lays : List Char → List Lexeme → Prop
  | nil : Lays [] []
  | cons {gap w cs : List Char} {l : Lexeme} {ls : List Lexeme} (hg : Gap false gap false) (hw : Writes w l)
    (h : Lays cs ls) : Lays (gap ++ w ++ cs) (l :: ls)

theorem Writes.ne_nil {w : List Char} {l : Lexeme} (h : Writes w l) : w ≠ [] := by
  cases h with
  | mark | string => nofun
  | symbol h | integer h =>
    intro hnil
    rw [hnil] at h
    cases h

variable {p q : Pos} {c : Char} {cs rest : List Char} {l : Lexeme}

private theorem ne_nul_of_isBlank (h : isBlank c = true) : nul ≠ c := by
  rintro rfl
  exact absurd h (by decide)

/-- What is passed over is a gap. A comment stays open at the end of the text and at a U+0000 only. -/
theorem skipGap_gap {comment : Bool} (h : skipGap comment p cs = (q, rest)) :
    ∃ gap b, cs = gap ++ rest ∧ Gap comment gap b ∧ nul ∉ gap ∧ (b = true → ∀ c ∈ rest.head?, c = nul) := by
  induction cs generalizing comment p with
  | nil => cases comment <;> cases h <;> exact ⟨[], _, rfl, .nil _, nofun, by simp⟩
  | cons c cs ih =>
    cases comment <;> unfold skipGap at h
    · split at h
      · rename_i hc
        obtain ⟨gap, b, rfl, hg, h0, hb⟩ := ih h
        exact ⟨c :: gap, b, rfl, .blank hc hg, by simp [h0, ne_nul_of_isBlank hc], hb⟩
      · split at h
        · obtain ⟨gap, b, rfl, hg, h0, hb⟩ := ih h
          subst c
          exact ⟨';' :: gap, b, rfl, .opens hg, List.not_mem_cons_of_ne_of_not_mem (by decide) h0, hb⟩
        · cases h
          exact ⟨[], _, rfl, .nil _, nofun, by simp⟩
    · split at h
      · cases h
        exact ⟨[], _, rfl, .nil _, nofun, by simpa⟩
      · rename_i hne
        obtain ⟨gap, b, rfl, hg, h0, hb⟩ := ih h
        have h0' : nul ∉ c :: gap := by simp [h0, Ne.symm hne]
        by_cases hc : c = '\n'
        · subst hc
          exact ⟨'\n' :: gap, b, rfl, .closes hg, h0', hb⟩
        · rw [bne_iff_ne.mpr hc] at hg
          exact ⟨c :: gap, b, rfl, .inside hc hg, h0', hb⟩

theorem stringBody_quotes {s : List Char} (h : stringBody p cs = .ok (s, q, rest)) :
    ∃ body, cs = body ++ '"' :: rest ∧ Quotes body s := by
  fun_induction stringBody p cs generalizing s with
  | case1 | case3 | case4 | case5 => cases h
  | case2 =>
    cases h
    exact ⟨[], rfl, .nil⟩
  | case6 p e cs x he _ _ ih =>
    obtain ⟨⟨s', q', rest'⟩, hs, h⟩ := Partial.map_eq_ok.mp h
    cases h
    obtain ⟨body, rfl, hb⟩ := ih hs
    exact ⟨'\\' :: e :: body, rfl, .escape he hb⟩
  | case7 p c cs hq h0 hb ih =>
    obtain ⟨⟨s', q', rest'⟩, hs, h⟩ := Partial.map_eq_ok.mp h
    cases h
    obtain ⟨body, rfl, hq'⟩ := ih hs
    exact ⟨c :: body, rfl, .raw hq hb h0 hq'⟩

theorem lexeme_writes (hb : isBlank c = false) (h : lexeme p c cs = .ok (l, q, rest)) :
    ∃ w, c :: cs = w ++ rest ∧ Writes w l := by
  have hw := lexeme_isWritten hb h
  unfold lexeme at h
  split at h
  · rename_i m hm
    cases h
    exact ⟨[c], rfl, .mark hm⟩
  · split at h
    · rename_i hq
      obtain ⟨⟨s, r⟩, hs, h⟩ := Partial.map_eq_ok.mp h
      cases h
      obtain ⟨body, rfl, hbody⟩ := stringBody_quotes hs
      subst hq
      refine ⟨'"' :: (body ++ ['"']), by simp, .string ?_⟩
      rw [String.toList_ofList]
      exact hbody
    · split at h
      · cases h
        refine ⟨_, ?_, .integer hw⟩
        rw [String.toList_ofList, List.cons_append, List.takeWhile_append_dropWhile]
      · split at h
        · cases h
          refine ⟨_, ?_, .symbol hw⟩
          rw [String.toList_ofList, List.cons_append, List.takeWhile_append_dropWhile]
        · cases h

private theorem lexFrom_lays {n : Nat} {e : Pos} (hn : cs.length < n) (he : (lexFrom n p cs).ending = .finished e) :
    ∃ front gap b rest, cs = front ++ gap ++ rest ∧ Lays front ((lexFrom n p cs).tokens.map Token.lexeme) ∧
      Gap false gap b ∧ ∀ c ∈ rest.head?, c = nul := by
  induction n generalizing p cs with
  | zero => omega
  | succ n ih =>
    rcases hskip : skipGap false p cs with ⟨q, _ | ⟨c, rest⟩⟩
    · obtain ⟨gap, b, rfl, hg, -, -⟩ := skipGap_gap hskip
      simp only [lexFrom, hskip]
      exact ⟨[], gap, b, [], rfl, .nil, hg, by simp⟩
    · obtain ⟨gap, b, rfl, hg, -, hb⟩ := skipGap_gap hskip
      by_cases h0 : c = nul
      · subst h0
        simp only [lexFrom, hskip, if_true]
        exact ⟨[], gap, b, nul :: rest, rfl, .nil, hg, by simp⟩
      · simp only [lexFrom, hskip, h0, if_false] at he ⊢
        cases hl : lexeme q c rest with
        | error e' =>
          rw [hl] at he
          cases he
        | ok x =>
          obtain ⟨l, q', cs'⟩ := x
          simp only [hl] at he ⊢
          -- a token is in front, so no comment is open there
          obtain rfl : b = false := Bool.eq_false_iff.mpr fun h => h0 (hb h c rfl)
          obtain ⟨w, hw, hwl⟩ := lexeme_writes (skipGap_front hskip h0) hl
          have hlen : (c :: rest).length ≤ n := by
            rw [List.length_append] at hn
            omega
          have hne : w ≠ [] := hwl.ne_nil
          have hrest : cs'.length < n := by
            rw [hw, List.length_append] at hlen
            have := List.length_pos_iff.mpr hne
            omega
          obtain ⟨front, gap', b', rest', rfl, hlays, hg', hr⟩ := ih hrest he
          refine ⟨gap ++ w ++ front, gap', b', rest', ?_, .cons hg hwl hlays, hg', hr⟩
          rw [hw]
          simp only [List.append_assoc]

/-- An accepted text is the tokens of its datum with gaps in front of them, and one more gap. Only a U+0000 may follow,
with anything behind it. -/
theorem parse_reads_up_to_nul {text : String} {d : Datum} (h : parse text = .ok d) :
    ∃ ts front gap b rest, text.toList = front ++ gap ++ rest ∧ Spells ts d ∧ Lays front (ts.map Token.lexeme) ∧
      Gap false gap b ∧ ∀ c ∈ rest.head?, c = nul := by
  have h' : ofLexed (lex text.toList) = .ok d := h
  unfold ofLexed at h'
  split at h'
  · rename_i d' e hd he
    cases h'
    obtain ⟨front, gap, b, rest, htext, hlays, hg, hr⟩ := lexFrom_lays (Nat.lt_succ_self _) he
    exact ⟨_, front, gap, b, rest, htext, readAll_eq_ok_iff.mp hd, hlays, hg, hr⟩
  · cases h'
  · cases h'
  · split at h' <;> cases h'

private def annotatedText : String := "; a list\n(a \"b;\") ; of two"

theorem annotated_reads_to_end :
    ∃ d, parse annotatedText = .ok d ∧ ∃ ts front gap b, annotatedText.toList = front ++ gap ∧ Spells ts d ∧
      Lays front (ts.map Token.lexeme) ∧ Gap false gap b := by
  obtain ⟨d, h⟩ : ∃ d, parse annotatedText = .ok d := Partial.exists_eq_ok (by decide +kernel)
  obtain ⟨ts, front, gap, b, rest, htext, hs, hl, hg, hr⟩ := parse_reads_up_to_nul h
  have h0 : nul ∉ annotatedText.toList := by decide +kernel
  obtain rfl : rest = [] := by
    cases rest with
    | nil => rfl
    | cons c rest =>
      rw [htext, hr c rfl] at h0
      simp at h0
  rw [List.append_nil] at htext
  exact ⟨d, h, ts, front, gap, b, htext, hs, hl, hg⟩

/-- Text behind a U+0000 is not a gap, and yet the text is accepted. -/
theorem nul_hides_text :
    parse (String.ofList ['a', nul, 'b']) = .ok (.symbol ⟨1, 1⟩ "a") ∧
      ¬∃ ts front gap b, ['a', nul, 'b'] = front ++ gap ∧ Spells ts (.symbol ⟨1, 1⟩ "a") ∧
        Lays front (ts.map Token.lexeme) ∧ Gap false gap b := by
  refine ⟨by rfl, ?_⟩
  rintro ⟨ts, front, gap, b, htext, hs, hl, hg⟩
  cases hs
  cases hl with
  | cons hg' hw hl' =>
    cases hl'
    cases hw with
    | mark h =>
      unfold markLexeme at h
      split at h <;> cases h
    | symbol =>
      cases hg' with
      | nil =>
        obtain rfl : gap = [nul, 'b'] := by simpa using htext.symm
        cases hg with
        | blank hc => exact absurd hc (by decide)
      | blank hc =>
        rw [← (List.cons.inj htext).1] at hc
        exact absurd hc (by decide)
      | opens => exact absurd (List.cons.inj htext).1 (by decide)

end WhileStack.Datum
