import WhileStack.Proofs.Datum.Extent

/-! Where tokens and data stand. The position of a token counts the newlines in front of its first character and the
characters behind the last of them, and so do the position where a text ends and that of a token that cannot be read. The
lexer may be asked for tokens beyond those as well. -/
namespace WhileStack.Datum
open WhileStack.Text

variable {p q r : Pos} {c : Char} {cs w gap before passed rest : List Char} {l : Lexeme} {e : LexicalError}

/-- The position behind some characters of a text, from its front. -/
def Pos.behind (before : List Char) : Pos :=
  ⟨1 + before.count '\n', 1 + (before.reverse.takeWhile fun c => c ≠ '\n').length⟩

theorem Pos.behind_concat (before : List Char) (c : Char) : Pos.behind (before ++ [c]) = (Pos.behind before).after c := by
  unfold Pos.after
  split
  · rename_i hc
    subst hc
    simp [Pos.behind, Nat.add_assoc]
  · rename_i hc
    simp [Pos.behind, hc, Nat.add_assoc]

theorem Pos.past_behind (before cs : List Char) : (Pos.behind before).past cs = .behind (before ++ cs) := by
  induction cs generalizing before with
  | nil => rw [List.append_nil]; rfl
  | cons c cs ih =>
    calc (Pos.behind before).past (c :: cs)
      _ = (Pos.behind (before ++ [c])).past cs := by rw [Pos.behind_concat]; rfl
      _ = .behind (before ++ c :: cs) := by rw [ih, List.append_assoc, List.singleton_append]

/-! ### Requests for tokens -/

/-- What a request for a token gives: the token, or how the text ends there. -/
inductive Answer where
  | token (t : Token)
  | ends (e : Ending)
deriving DecidableEq

/-- Where the contents of a string stop: behind the closing quote, or at the character that they cannot hold. -/
def stringStop : Pos → List Char → Pos × List Char
  | p, [] => (p, [])
  | p, c :: cs =>
    if c = '"' then (p.after c, cs)
    else if c = nul then (p, c :: cs)
    else if c = '\\' then
      match cs with
      | [] => (p.after c, [])
      | e :: cs =>
        match unescape e with
        | none => (p.after c, e :: cs)
        | some _ => stringStop ((p.after c).after e) cs
    else stringStop (p.after c) cs

/-- One request, with the place where the next one starts. A character that starts no token stays where it is. -/
def request (p : Pos) (cs : List Char) : Answer × Pos × List Char :=
  match skipGap false p cs with
  | (q, []) => (.ends (.finished q), q, [])
  | (q, c :: rest) =>
    if c = nul then (.ends (.finished q), q, c :: rest)
    else match lexeme q c rest with
      | .ok (l, r, rest') => (.token ⟨l, q⟩, r, rest')
      | .error e => (.ends (.failed e q), if c = '"' then stringStop (q.after c) rest else (q, c :: rest))

/-- Requests one after the other. They go on behind the end of the text and behind what cannot be read. -/
def requests : Nat → Pos → List Char → List Answer
  | 0, _, _ => []
  | n + 1, p, cs => (request p cs).1 :: requests n (request p cs).2.1 (request p cs).2.2

/-! ### The characters of an answer -/

/-- The contents of a string, cut short by what follows them. -/
inductive Cuts : List Char → List Char → LexicalError → Prop
  | ends {rest : List Char} (h : ∀ c ∈ rest.head?, c = nul) : Cuts [] rest .unterminated
  | badEscape {c : Char} {rest : List Char} (hc : unescape c = none) : Cuts ['\\'] (c :: rest) (.badEscape c)
  | noEscape : Cuts ['\\'] [] (.badEscape nul)
  | raw {c : Char} {w rest : List Char} {e : LexicalError} (hq : c ≠ '"') (hb : c ≠ '\\') (h0 : c ≠ nul)
    (h : Cuts w rest e) : Cuts (c :: w) rest e
  | escape {c x : Char} {w rest : List Char} {e : LexicalError} (hc : unescape c = some x) (h : Cuts w rest e) :
    Cuts ('\\' :: c :: w) rest e

/-- The characters that are read of a token that cannot be read, in front of a text. -/
inductive Breaks : List Char → List Char → LexicalError → Prop
  | stray {c : Char} {rest : List Char} (hb : isBlank c = false) (hm : markLexeme c = none) (hs : isSymbolChar c = false)
    (hc : c ∉ [';', '"', nul]) : Breaks [] (c :: rest) (.stray c)
  | string {w rest : List Char} {e : LexicalError} (h : Cuts w rest e) : Breaks ('"' :: w) rest e

/-- An answer, with the characters that are read for it: a gap, behind which it is placed, and those of the token. -/
inductive Replies (before : List Char) : List Char → Answer → List Char → Prop
  | token {gap w rest : List Char} {l : Lexeme} (hg : Gap false gap false) (h0 : nul ∉ gap) (hw : Writes w l) :
    Replies before (gap ++ w) (.token ⟨l, .behind (before ++ gap)⟩) rest
  | finished {gap rest : List Char} {b : Bool} (hg : Gap false gap b) (h0 : nul ∉ gap) (hr : ∀ c ∈ rest.head?, c = nul) :
    Replies before gap (.ends (.finished (.behind (before ++ gap)))) rest
  | failed {gap w rest : List Char} {e : LexicalError} (hg : Gap false gap false) (h0 : nul ∉ gap) (hw : Breaks w rest e) :
    Replies before (gap ++ w) (.ends (.failed e (.behind (before ++ gap)))) rest

/-- Answers one after the other, the first behind the characters `before`. -/
inductive Answered : List Char → List Char → List Answer → Prop
  | nil {before cs : List Char} : Answered before cs []
  | cons {before passed rest : List Char} {a : Answer} {as : List Answer} (h : Replies before passed a rest)
    (hs : Answered (before ++ passed) rest as) : Answered before (passed ++ rest) (a :: as)

/-! ### Positions go on with the characters that are read -/

/-- From `p` in front of `cs` some characters are read, up to `q` in front of `rest`. -/
def Passes (p : Pos) (cs : List Char) (q : Pos) (rest : List Char) : Prop := ∃ w, cs = w ++ rest ∧ q = p.past w

theorem Passes.refl (p : Pos) (cs : List Char) : Passes p cs p cs := ⟨[], rfl, rfl⟩

theorem Passes.cons (h : Passes (p.after c) cs q rest) : Passes p (c :: cs) q rest := by
  obtain ⟨w, rfl, rfl⟩ := h
  exact ⟨c :: w, rfl, rfl⟩

theorem Passes.past_eq (h : Passes p (w ++ rest) q rest) : q = p.past w := by
  obtain ⟨w', hw, rfl⟩ := h
  rw [List.append_cancel_right hw]

private theorem skipGap_passes {b : Bool} (h : skipGap b p cs = (q, rest)) : Passes p cs q rest := by
  induction cs generalizing b p with
  | nil => cases b <;> cases h <;> exact .refl _ _
  | cons c cs ih =>
    cases b <;> unfold skipGap at h
    · split at h
      · exact .cons (ih h)
      · split at h
        · exact .cons (ih h)
        · cases h
          exact .refl _ _
    · split at h
      · cases h
        exact .refl _ _
      · exact .cons (ih h)

private theorem stringBody_passes {s : List Char} (h : stringBody p cs = .ok (s, q, rest)) : Passes p cs q rest := by
  fun_induction stringBody p cs generalizing s with
  | case1 | case3 | case4 | case5 => cases h
  | case2 =>
    cases h
    exact .cons (.refl _ _)
  | case6 p c cs x _ _ _ ih =>
    obtain ⟨⟨s', r⟩, hs, h⟩ := Partial.map_eq_ok.mp h
    cases h
    exact .cons (.cons (ih hs))
  | case7 p c cs _ _ _ ih =>
    obtain ⟨⟨s', r⟩, hs, h⟩ := Partial.map_eq_ok.mp h
    cases h
    exact .cons (ih hs)

private theorem passes_run {P : Char → Bool} (p : Pos) (c : Char) (cs : List Char) :
    Passes p (c :: cs) (p.past (c :: cs.takeWhile P)) (cs.dropWhile P) :=
  ⟨c :: cs.takeWhile P, by rw [List.cons_append, List.takeWhile_append_dropWhile], rfl⟩

private theorem lexeme_passes (h : lexeme p c cs = .ok (l, q, rest)) : Passes p (c :: cs) q rest := by
  unfold lexeme at h
  split at h
  · cases h
    exact .cons (.refl _ _)
  · split at h
    · obtain ⟨⟨s, r⟩, hs, h⟩ := Partial.map_eq_ok.mp h
      cases h
      exact .cons (stringBody_passes hs)
    · split at h
      · cases h
        exact passes_run p c cs
      · split at h
        · cases h
          exact passes_run p c cs
        · cases h

private theorem stringBody_cuts (h : stringBody p cs = .error e) :
    ∃ w rest, cs = w ++ rest ∧ stringStop p cs = (p.past w, rest) ∧ Cuts w rest e := by
  fun_induction stringBody p cs with
  | case1 p =>
    cases h
    exact ⟨[], [], rfl, rfl, .ends (by simp)⟩
  | case2 => cases h
  | case3 p cs hq =>
    cases h
    exact ⟨[], nul :: cs, rfl, by rw [stringStop.eq_def]; simp only [hq, if_false, if_true]; rfl, .ends (by simp)⟩
  | case4 p hq h0 =>
    cases h
    exact ⟨['\\'], [], rfl, by simp [stringStop, h0]; rfl, .noEscape⟩
  | case5 p c cs hc hq h0 =>
    cases h
    exact ⟨['\\'], c :: cs, rfl, by simp [stringStop, h0, hc]; rfl, .badEscape hc⟩
  | case6 p c cs x hc hq h0 ih =>
    cases hs : stringBody ((p.after '\\').after c) cs with
    | ok r => simp [hs, Except.map] at h
    | error e' =>
      simp only [hs, Except.map, Except.error.injEq] at h
      subst h
      obtain ⟨w, rest, rfl, hstop, hcut⟩ := ih hs
      exact ⟨'\\' :: c :: w, rest, rfl, by simp [stringStop, h0, hc, hstop]; rfl, .escape hc hcut⟩
  | case7 p c cs hq h0 hb ih =>
    cases hs : stringBody (p.after c) cs with
    | ok r => simp [hs, Except.map] at h
    | error e' =>
      simp only [hs, Except.map, Except.error.injEq] at h
      subst h
      obtain ⟨w, rest, rfl, hstop, hcut⟩ := ih hs
      exact ⟨c :: w, rest, rfl, by rw [stringStop.eq_def]; simp only [hq, h0, hb, if_false, hstop]; rfl, .raw hq hb h0 hcut⟩

/-- No comment starts behind a gap. -/
private theorem skipGap_ne_semicolon {b : Bool} (h : skipGap b p cs = (q, c :: rest)) : c ≠ ';' := by
  induction cs generalizing b p with
  | nil => cases b <;> cases h
  | cons d cs ih =>
    cases b <;> unfold skipGap at h
    · split at h
      · exact ih h
      · split at h
        · exact ih h
        · cases h
          assumption
    · split at h
      · rename_i h0
        cases h
        rw [h0]
        decide
      · exact ih h

/-- Where a token cannot be read, its characters break off. -/
private theorem lexeme_breaks (hb : isBlank c = false) (hc : c ≠ ';') (h0 : c ≠ nul)
    (h : lexeme p c cs = .error e) :
    ∃ w rest, c :: cs = w ++ rest ∧ (if c = '"' then stringStop (p.after c) cs else (p, c :: cs)) = (p.past w, rest) ∧
      Breaks w rest e := by
  unfold lexeme at h
  split at h
  · cases h
  · rename_i hm
    split at h
    · rename_i hq
      cases hs : stringBody (p.after c) cs with
      | ok r => simp [hs, Except.map] at h
      | error e' =>
        simp only [hs, Except.map, Except.error.injEq] at h
        subst h
        obtain ⟨w, rest, rfl, hstop, hcut⟩ := stringBody_cuts hs
        refine ⟨c :: w, rest, rfl, ?_, ?_⟩
        · rw [if_pos hq, hstop]
          rfl
        · rw [hq]
          exact .string hcut
    · rename_i hq
      split at h
      · cases h
      · split at h
        · cases h
        · rename_i hs
          cases h
          refine ⟨[], c :: cs, rfl, by rw [if_neg hq]; rfl, .stray hb hm (by simpa using hs) ?_⟩
          simp [hc, hq, h0]

/-! ### Every answer is placed where it stands -/

/-- One request behind some characters: the next one is placed behind those that have been read as well. -/
private theorem request_replies (before cs : List Char) : ∃ passed a rest, cs = passed ++ rest ∧
    request (.behind before) cs = (a, .behind (before ++ passed), rest) ∧ Replies before passed a rest := by
  rcases hskip : skipGap false (.behind before) cs with ⟨q, cs'⟩
  obtain ⟨gap, b, rfl, hg, hn, hb⟩ := skipGap_gap hskip
  obtain rfl : q = .behind (before ++ gap) := by rw [(skipGap_passes hskip).past_eq, Pos.past_behind]
  cases cs' with
  | nil => exact ⟨gap, _, [], rfl, by rw [request, hskip], .finished hg hn nofun⟩
  | cons c rest =>
    by_cases h0 : c = nul
    · refine ⟨gap, _, c :: rest, rfl, ?_, .finished hg hn (by simpa using h0)⟩
      rw [request, hskip]
      exact if_pos h0
    · -- a token is in front, so no comment is open there
      obtain rfl : b = false := Bool.eq_false_iff.mpr fun h => h0 (hb h c rfl)
      have hblank := skipGap_front hskip h0
      have hsemi := skipGap_ne_semicolon hskip
      cases hl : lexeme (.behind (before ++ gap)) c rest with
      | ok x =>
        obtain ⟨l, r, rest'⟩ := x
        obtain ⟨w, hw, hwrites⟩ := lexeme_writes hblank hl
        have hpass := lexeme_passes hl
        rw [hw] at hpass
        refine ⟨gap ++ w, _, rest', by rw [hw, List.append_assoc], ?_, .token hg hn hwrites⟩
        rw [request, hskip]
        simp only [h0, if_false, hl]
        rw [hpass.past_eq, Pos.past_behind, List.append_assoc]
      | error e =>
        obtain ⟨w, rest', hw, hstop, hbreaks⟩ := lexeme_breaks hblank hsemi h0 hl
        refine ⟨gap ++ w, _, rest', by rw [hw, List.append_assoc], ?_, .failed hg hn hbreaks⟩
        rw [request, hskip]
        simp only [h0, if_false, hl]
        rw [hstop, Pos.past_behind, List.append_assoc]

private theorem requests_answered (n : Nat) (before cs : List Char) :
    Answered before cs (requests n (.behind before) cs) := by
  induction n generalizing before cs with
  | zero => exact .nil
  | succ n ih =>
    obtain ⟨passed, a, rest, rfl, hr, ha⟩ := request_replies before cs
    rw [requests, hr]
    exact .cons ha (ih _ _)

private theorem Answered.exists_replies {as : List Answer} {a : Answer} (h : Answered before cs as) (ha : a ∈ as) :
    ∃ mid passed rest, cs = mid ++ (passed ++ rest) ∧ Replies (before ++ mid) passed a rest := by
  induction h with
  | nil => cases ha
  | @cons before passed rest a' as hr _ ih =>
    rcases List.mem_cons.mp ha with rfl | ha
    · exact ⟨[], passed, rest, rfl, by rwa [List.append_nil]⟩
    · obtain ⟨mid, passed', rest', rfl, hr'⟩ := ih ha
      exact ⟨passed ++ mid, passed', rest', by rw [List.append_assoc], by rwa [← List.append_assoc]⟩

/-- The lexer asks for tokens as long as it is given some. -/
private theorem lexFrom_requests {n : Nat} (hn : cs.length < n) : requests ((lexFrom n p cs).tokens.length + 1) p cs =
    (lexFrom n p cs).tokens.map .token ++ [.ends (lexFrom n p cs).ending] := by
  induction n generalizing p cs with
  | zero => omega
  | succ n ih =>
    rcases hskip : skipGap false p cs with ⟨q, _ | ⟨c, rest⟩⟩
    · simp [lexFrom, requests, request, hskip]
    · by_cases h0 : c = nul
      · simp [lexFrom, requests, request, hskip, h0]
      · cases hl : lexeme q c rest with
        | error e => simp [lexFrom, requests, request, hskip, h0, hl]
        | ok x =>
          obtain ⟨l, r, rest'⟩ := x
          obtain ⟨gap, b, rfl, -, -, -⟩ := skipGap_gap hskip
          obtain ⟨w, hw, hwl⟩ := lexeme_writes (skipGap_front hskip h0) hl
          have hne : w ≠ [] := hwl.ne_nil
          have hlen : rest'.length < n := by
            have := List.length_pos_iff.mpr hne
            rw [hw, List.length_append, List.length_append] at hn
            omega
          have hreq : request p (gap ++ c :: rest) = (.token ⟨l, q⟩, r, rest') := by
            simp [request, hskip, h0, hl]
          simp only [lexFrom, hskip, h0, if_false, hl, List.length_cons]
          rw [requests, hreq, ih hlen]
          rfl

/-! ### The token that a datum starts with -/

/-- The lexeme at the front of a datum. -/
def opening : Datum → Lexeme
  | symbol _ s => .symbol s
  | string _ s => .string s
  | integer _ s _ => .integer s
  | list .. => .lparen
  | map .. => .lbrace

/-- The data that a datum is made of: the items and the values of the notes of a list, and the values of a map. -/
def children : Datum → List Datum
  | symbol .. | string .. | integer .. => []
  | list _ items notes => items ++ notes.map Prod.snd
  | map _ entries => entries.map Prod.snd

/-- A datum contains itself and whatever its children contain. -/
inductive Contains (root : Datum) : Datum → Prop
  | root : Contains root root
  | child {d x : Datum} (h : Contains root d) (hx : x ∈ d.children) : Contains root x

private theorem mem_addNote {notes : List (String × Datum)} {k : String} {v : Datum} {x : String × Datum}
    (h : x ∈ addNote notes k v) : x ∈ notes ∨ x = (k, v) := by
  induction notes with
  | nil => exact .inr (List.mem_singleton.mp h)
  | cons y notes ih =>
    simp only [addNote] at h
    split at h
    · rename_i hk
      rcases List.mem_cons.mp h with rfl | h
      · exact .inr (by rw [hk])
      · exact .inl (List.mem_cons_of_mem _ h)
    · rcases List.mem_cons.mp h with rfl | h
      · exact .inl (List.mem_cons_self ..)
      · exact (ih h).imp_left (List.mem_cons_of_mem _)

private theorem mem_addNotes {notes more : List (String × Datum)} {x : String × Datum} (h : x ∈ addNotes notes more) :
    x ∈ notes ∨ x ∈ more := by
  induction more generalizing notes with
  | nil => exact .inl h
  | cons y more ih =>
    rcases ih h with h | h
    · exact (mem_addNote h).imp_right fun h => by rw [h]; exact List.mem_cons_self ..
    · exact .inr (List.mem_cons_of_mem _ h)

/-- Some of the tokens, standing side by side, spell the datum. -/
private def SpeltIn (ts : List Token) (x : Datum) : Prop := ∃ us, us <:+: ts ∧ Spells us x

private theorem SpeltIn.mono {ts us : List Token} {x : Datum} (h : SpeltIn ts x) (hi : ts <:+: us) : SpeltIn us x := by
  obtain ⟨vs, hv, hx⟩ := h
  exact ⟨vs, hv.trans hi, hx⟩

private theorem SpellsEntries.spelt : ∀ {ts : List Token} {entries : List (String × Datum)} {x : Datum},
    SpellsEntries ts entries → x ∈ entries.map Prod.snd → SpeltIn ts x
  | _, _, _, .nil, hx => by cases hx
  | _, _, x, @SpellsEntries.last p q k ts _ h, hx => by
    rw [List.map_singleton, List.mem_singleton] at hx
    subst hx
    exact ⟨ts, ⟨[⟨.symbol k, p⟩, ⟨.colon, q⟩], [], by simp⟩, h⟩
  | _, _, x, @SpellsEntries.more p q r k ts us _ _ h hs, hx => by
    rcases List.mem_cons.mp hx with rfl | hx
    · exact ⟨ts, ⟨[⟨.symbol k, p⟩, ⟨.colon, q⟩], ⟨.comma, r⟩ :: us, rfl⟩, h⟩
    · apply (SpellsEntries.spelt hs hx).mono
      exact ⟨⟨.symbol k, p⟩ :: ⟨.colon, q⟩ :: (ts ++ [⟨.comma, r⟩]), [], by simp⟩

private theorem SpellsItems.spelt : ∀ {ts : List Token} {items : List Datum} {notes : List (String × Datum)} {x : Datum},
    SpellsItems ts items notes → x ∈ items ++ notes.map Prod.snd → SpeltIn ts x
  | _, _, _, _, .nil, hx => by cases hx
  | _, _, _, x, @SpellsItems.item ts us _ _ _ h hs, hx => by
    rcases List.mem_cons.mp hx with rfl | hx
    · exact ⟨ts, (List.prefix_append ts us).isInfix, h⟩
    · exact (SpellsItems.spelt hs hx).mono (List.suffix_append ts us).isInfix
  | _, _, _, x, @SpellsItems.notes p q r ts us es ns xs h hs, hx => by
    have hin : x ∈ es.map Prod.snd ∨ x ∈ xs ++ ns.map Prod.snd := by
      simp only [List.map_append, List.mem_append] at hx ⊢
      rcases hx with hx | hx | hx
      · exact .inr (.inl hx)
      · exact .inl hx
      · exact .inr (.inr hx)
    rcases hin with hx | hx
    · apply (SpellsEntries.spelt h hx).mono
      exact ⟨[⟨.caret, p⟩, ⟨.lbrace, q⟩], ⟨.rbrace, r⟩ :: us, rfl⟩
    · apply (SpellsItems.spelt hs hx).mono
      exact ⟨⟨.caret, p⟩ :: ⟨.lbrace, q⟩ :: (ts ++ [⟨.rbrace, r⟩]), [], by simp⟩

private theorem Spells.child {ts : List Token} {d x : Datum} (h : Spells ts d) (hx : x ∈ d.children) : SpeltIn ts x := by
  cases h with
  | symbol | string | integer => cases hx
  | list p q h =>
    rename_i us items notes
    have hin : x ∈ items ++ notes.map Prod.snd := by
      rw [children, List.mem_append] at hx
      rw [List.mem_append]
      apply hx.imp_right
      intro hx
      obtain ⟨e, he, rfl⟩ := List.mem_map.mp hx
      exact List.mem_map_of_mem ((mem_addNotes he).resolve_left (List.not_mem_nil))
    exact (h.spelt hin).mono ⟨[⟨.lparen, p⟩], [⟨.rparen, q⟩], rfl⟩
  | map p q h => exact (h.spelt hx).mono ⟨[⟨.lbrace, p⟩], [⟨.rbrace, q⟩], rfl⟩

/-- Each datum in a datum is spelt by some of the tokens. -/
private theorem Spells.contains {ts : List Token} {d x : Datum} (h : Spells ts d) (hx : d.Contains x) : SpeltIn ts x := by
  induction hx with
  | root => exact ⟨ts, List.infix_rfl, h⟩
  | child _ hx ih =>
    obtain ⟨us, hi, hs⟩ := ih
    exact (hs.child hx).mono hi

private theorem Spells.starts {ts : List Token} {d : Datum} (h : Spells ts d) : ∃ us, ts = ⟨d.opening, d.pos⟩ :: us := by
  cases h <;> exact ⟨_, rfl⟩

private theorem parse_lexical {text : String} (h : Datum.parse text = .error ⟨p, .lexical e⟩) :
    (lex text.toList).ending = .failed e p := by
  have h' : ofLexed (lex text.toList) = .error ⟨p, .lexical e⟩ := h
  unfold ofLexed at h'
  split at h'
  · cases h'
  · rename_i hend
    cases h'
    exact hend
  · cases h'
  · rename_i hend
    split at h'
    · cases h'
      exact hend
    · cases h'

/-- Positions are exact. Whatever the lexer answers, and however often it is asked, is placed behind the characters in front
of it: a token at its first character, the end at the end of the text or at a U+0000, and a token that cannot be read at its
first character. The tokens of a text are what it is given up to the first end. Every datum in what is read from a text
stands where its first token does, a list or map at its opening bracket, and a lexical error where the token starts. -/
theorem positions_exact (text : String) :
    (∀ n, Answered [] text.toList (requests n .start text.toList)) ∧
      requests ((lex text.toList).tokens.length + 1) .start text.toList =
        (lex text.toList).tokens.map .token ++ [.ends (lex text.toList).ending] ∧
      (∀ d, Datum.parse text = .ok d → ∀ x, d.Contains x → ∃ us before w after,
        (⟨x.opening, x.pos⟩ :: us <:+: (lex text.toList).tokens ∧ Spells (⟨x.opening, x.pos⟩ :: us) x) ∧
        text.toList = before ++ (w ++ after) ∧ Writes w x.opening ∧ x.pos = .behind before) ∧
      ∀ e p, Datum.parse text = .error ⟨p, .lexical e⟩ → ∃ before w rest,
        text.toList = before ++ (w ++ rest) ∧ Breaks w rest e ∧ p = .behind before := by
  have hall : ∀ n, Answered [] text.toList (requests n .start text.toList) := by
    intro n
    exact requests_answered n [] text.toList
  have hlex : requests ((lex text.toList).tokens.length + 1) .start text.toList =
      (lex text.toList).tokens.map .token ++ [.ends (lex text.toList).ending] :=
    lexFrom_requests (Nat.lt_succ_self _)
  have hplaced := hall ((lex text.toList).tokens.length + 1)
  rw [hlex] at hplaced
  refine ⟨hall, hlex, ?_, ?_⟩
  · intro d hd x hx
    obtain ⟨us, hi, hs⟩ := (parse_eq_ok_iff.mp hd).1.contains hx
    obtain ⟨us, rfl⟩ := hs.starts
    have hmem := hi.subset (List.mem_cons_self ..)
    obtain ⟨mid, passed, rest, htext, hr⟩ :=
      hplaced.exists_replies (List.mem_append_left _ (List.mem_map_of_mem hmem))
    generalize ha : Answer.token ⟨x.opening, x.pos⟩ = a at hr
    cases hr with
    | finished | failed => cases ha
    | @token gap w _ l _ _ hw =>
      simp only [Answer.token.injEq, Token.mk.injEq, List.nil_append] at ha
      obtain ⟨rfl, hp⟩ := ha
      exact ⟨us, mid ++ gap, w, rest, ⟨hi, hs⟩, by simp [htext], hw, hp⟩
  · intro e p he
    have hend := parse_lexical he
    obtain ⟨mid, passed, rest, htext, hr⟩ :=
      hplaced.exists_replies (List.mem_append_right _ (List.mem_singleton_self _))
    rw [hend] at hr
    generalize ha : Answer.ends (.failed e p) = a at hr
    cases hr with
    | token | finished => cases ha
    | @failed gap w _ e' _ _ hw =>
      simp only [Answer.ends.injEq, Ending.failed.injEq, List.nil_append] at ha
      obtain ⟨rfl, hp⟩ := ha
      exact ⟨mid ++ gap, w, rest, by simp [htext], hw, hp⟩

private def twoLines : String := "; on two lines\n(\"a\nb\" c)"

private def brokenString : String := "(a\n \"b\\c\" d)"

/-- A symbol behind a string that goes on in the next line, and a string that an escape makes unreadable: the lexer goes on
at the escape. -/
theorem later_lines_placed :
    (∃ d, Datum.parse twoLines = .ok d ∧ d.Contains (.symbol ⟨3, 4⟩ "c") ∧ ∃ before w after,
      twoLines.toList = before ++ (w ++ after) ∧ Writes w (.symbol "c") ∧ (⟨3, 4⟩ : Pos) = .behind before) ∧
      Datum.parse brokenString = .error ⟨⟨2, 2⟩, .lexical (.badEscape 'c')⟩ ∧
      (∃ before w rest, brokenString.toList = before ++ (w ++ rest) ∧ Breaks w rest (.badEscape 'c') ∧
        (⟨2, 2⟩ : Pos) = .behind before) ∧
      Answered [] brokenString.toList [.token ⟨.lparen, ⟨1, 1⟩⟩, .token ⟨.symbol "a", ⟨1, 2⟩⟩,
        .ends (.failed (.badEscape 'c') ⟨2, 2⟩), .token ⟨.symbol "c", ⟨2, 5⟩⟩, .ends (.failed .unterminated ⟨2, 6⟩),
        .ends (.finished ⟨2, 10⟩)] := by
  have htokens : lex twoLines.toList = ⟨[⟨.lparen, ⟨2, 1⟩⟩, ⟨.string "a\nb", ⟨2, 2⟩⟩, ⟨.symbol "c", ⟨3, 4⟩⟩,
      ⟨.rparen, ⟨3, 5⟩⟩], .finished ⟨3, 6⟩⟩ := by decide +kernel
  have hbroken : lex brokenString.toList = ⟨[⟨.lparen, ⟨1, 1⟩⟩, ⟨.symbol "a", ⟨1, 2⟩⟩],
      .failed (.badEscape 'c') ⟨2, 2⟩⟩ := by decide +kernel
  have hok : Datum.parse twoLines = .ok (.list ⟨2, 1⟩ [.string ⟨2, 2⟩ "a\nb", .symbol ⟨3, 4⟩ "c"] []) := by
    rw [parse_eq_ok_iff, htokens]
    exact ⟨.list _ _ (.item (.string _ _) (.item (.symbol _ _) .nil)), _, rfl⟩
  have hbad : Datum.parse brokenString = .error ⟨⟨2, 2⟩, .lexical (.badEscape 'c')⟩ := by
    rw [Datum.parse, ofChars, hbroken]
    rfl
  have hc : Contains (.list ⟨2, 1⟩ [.string ⟨2, 2⟩ "a\nb", .symbol ⟨3, 4⟩ "c"] []) (.symbol ⟨3, 4⟩ "c") :=
    .child .root (by simp [children])
  have hrequests : requests 6 .start brokenString.toList = [.token ⟨.lparen, ⟨1, 1⟩⟩, .token ⟨.symbol "a", ⟨1, 2⟩⟩,
      .ends (.failed (.badEscape 'c') ⟨2, 2⟩), .token ⟨.symbol "c", ⟨2, 5⟩⟩, .ends (.failed .unterminated ⟨2, 6⟩),
      .ends (.finished ⟨2, 10⟩)] := by decide +kernel
  obtain ⟨-, -, hdata, -⟩ := positions_exact twoLines
  obtain ⟨hanswers, -, -, hlexical⟩ := positions_exact brokenString
  obtain ⟨us, before, w, after, -, htext, hw, hp⟩ := hdata _ hok _ hc
  exact ⟨⟨_, hok, hc, before, w, after, htext, hw, hp⟩, hbad, hlexical _ _ hbad, hrequests ▸ hanswers 6⟩

end WhileStack.Datum
