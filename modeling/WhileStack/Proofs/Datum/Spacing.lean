import WhileStack.Proofs.Datum.Extent
import WhileStack.Proofs.Datum.RoundTrip

/-! Gaps between tokens. Blanks and closed comments may be put in front of any token of a text and behind it: the text
is cut into the same tokens, and it gives the same datum, positions apart. -/
namespace WhileStack.Datum
open WhileStack.Text

variable {p q r : Pos} {c : Char} {l : Lexeme} {cs g v w rest rest' before after : List Char} {t u : Token}

/-! ### Where the tokens of a text stand -/

/-- A step of the lexer: it passes over a gap, reads the characters `w` of a token and goes on from `r` in the rest. -/
structure Step (p : Pos) (gap w : List Char) (t : Token) (r : Pos) (rest : List Char) : Prop where
  passes : skipGap false p (gap ++ (w ++ rest)) = (t.pos, w ++ rest)
  reads : ∃ c v, w = c :: v ∧ c ≠ nul ∧ lexeme t.pos c (v ++ rest) = .ok (t.lexeme, r, rest)

/-- A token stands in a text that starts at `p`: behind the characters `before`, made of the characters `w`. -/
inductive Stands : Pos → List Char → List Char → List Char → Token → List Char → Prop
  | first {p r : Pos} {gap w after : List Char} {t : Token} (h : Step p gap w t r after) :
    Stands p (gap ++ (w ++ after)) gap w t after
  | later {p r : Pos} {gap v rest before w after : List Char} {t u : Token} (h : Step p gap v u r rest)
    (ht : Stands r rest before w t after) : Stands p (gap ++ (v ++ rest)) (gap ++ v ++ before) w t after

theorem Stands.text_eq (h : Stands p cs before w t after) : cs = before ++ (w ++ after) := by
  induction h with
  | first h => rfl
  | later h _ ih => simp [ih]

/-! ### Texts without their positions -/

def Ending.error? : Ending → Option LexicalError
  | .finished _ => none
  | .failed e _ => some e

/-- What a text is cut into, positions apart. -/
def Lexed.bare (x : Lexed) : List Lexeme × Option LexicalError := (x.tokens.map Token.lexeme, x.ending.error?)

private theorem skipGap_moved (b : Bool) (p q : Pos) (cs : List Char) : (skipGap b p cs).2 = (skipGap b q cs).2 := by
  induction cs generalizing b p q with
  | nil => cases b <;> rfl
  | cons c cs ih =>
    cases b <;> unfold skipGap
    · split
      · exact ih ..
      · split
        · exact ih ..
        · rfl
    · split
      · rfl
      · exact ih ..

/-- What a part of the lexer gives, but for the position. -/
private def placeless {α : Type} (x : Except LexicalError (α × Pos × List Char)) :
    Except LexicalError (α × List Char) :=
  x.map fun y => (y.1, y.2.2)

private theorem placeless_map {α β : Type} {f : α → β} {x y : Except LexicalError (α × Pos × List Char)}
    (h : placeless x = placeless y) :
    placeless (x.map fun (a, b) => (f a, b)) = placeless (y.map fun (a, b) => (f a, b)) := by
  cases x <;> cases y <;> simp_all [placeless, Except.map]

private theorem stringBody_moved (p q : Pos) (cs : List Char) :
    placeless (stringBody p cs) = placeless (stringBody q cs) := by
  fun_induction stringBody p cs generalizing q with
  | case1 p => rfl
  | case2 p cs | case3 p cs | case4 p | case5 p e cs =>
    rw [stringBody.eq_def]
    simp [*, placeless, Except.map]
  | case6 p e cs x he hq h0 ih =>
    rw [stringBody.eq_def q]
    simp only [hq, h0, he, if_false, if_true]
    exact placeless_map (ih _)
  | case7 p c cs hq h0 hb ih =>
    rw [stringBody.eq_def q]
    simp only [hq, h0, hb, if_false]
    exact placeless_map (ih _)

private theorem lexeme_moved (p q : Pos) (c : Char) (cs : List Char) :
    placeless (lexeme p c cs) = placeless (lexeme q c cs) := by
  unfold lexeme
  split
  · rfl
  · split
    · exact placeless_map (f := fun s => Lexeme.string (String.ofList s)) (stringBody_moved ..)
    · repeat' split
      all_goals rfl

private theorem lexFrom_moved (n : Nat) (p q : Pos) (cs : List Char) :
    (lexFrom n p cs).bare = (lexFrom n q cs).bare := by
  induction n generalizing p q cs with
  | zero => rfl
  | succ n ih =>
    have hskip := skipGap_moved false p q cs
    unfold lexFrom
    rcases hp : skipGap false p cs with ⟨p', cs'⟩
    rcases hq : skipGap false q cs with ⟨q', cs''⟩
    rw [hp, hq] at hskip
    obtain rfl : cs' = cs'' := hskip
    cases cs' with
    | nil => rfl
    | cons c cs' =>
      have hlex := lexeme_moved p' q' c cs'
      dsimp only
      split
      · rfl
      · rcases hp : lexeme p' c cs' with e | ⟨l, r, rest⟩ <;> rcases hq : lexeme q' c cs' with e' | ⟨l', r', rest'⟩ <;>
          rw [hp, hq] at hlex <;> cases hlex
        · rfl
        · have hrest := ih r r' rest
          simp only [Lexed.bare, Prod.mk.injEq] at hrest
          simp [Lexed.bare, hrest]

theorem lexAt_moved (p q : Pos) (cs : List Char) : (lexAt p cs).bare = (lexAt q cs).bare := lexFrom_moved ..

/-- What a text is cut into wherever it starts. -/
def lexemesOf (cs : List Char) : List Lexeme × Option LexicalError := (lexAt .start cs).bare

/-! ### A gap gives no token -/

private theorem skipGap_append {b b' : Bool} (h : Gap b g b') (h0 : nul ∉ g) (p : Pos) (cs : List Char) :
    skipGap b p (g ++ cs) = skipGap b' (p.past g) cs := by
  induction h generalizing p with
  | nil b => rfl
  | blank hc _ ih =>
    rw [List.cons_append, skipGap, if_pos hc, ih (List.not_mem_of_not_mem_cons h0)]
    rfl
  | opens _ ih =>
    rw [List.cons_append, skipGap, if_neg (by decide), if_pos rfl, ih (List.not_mem_of_not_mem_cons h0)]
    rfl
  | inside hc _ ih =>
    rw [List.cons_append, skipGap, if_neg (Ne.symm (List.ne_of_not_mem_cons h0)), bne_iff_ne.mpr hc,
      ih (List.not_mem_of_not_mem_cons h0)]
    rfl
  | closes _ ih =>
    rw [List.cons_append, skipGap, if_neg (by decide), bne_self_eq_false, ih (List.not_mem_of_not_mem_cons h0)]
    rfl

private theorem Scans.gap (h : Gap false g false) (h0 : nul ∉ g) : Scans p (g ++ cs) [] (p.past g) cs :=
  .skipped (skipGap_append h h0 p cs) (by simp)

private theorem lexemesOf_gap (h : Gap false g false) (h0 : nul ∉ g) (cs : List Char) :
    lexemesOf (g ++ cs) = lexemesOf cs := by
  have hs : Scans .start (g ++ cs) [] _ cs := Scans.gap h h0
  rw [lexemesOf, hs]
  exact lexAt_moved ..

/-! ### A token is the same whatever follows its end -/

/-- As far as tokens in front are concerned a text may stand for another one: no token goes on into it, or it starts
alike. -/
private def Replaces (rest' rest : List Char) : Prop := Stops rest' ∨ rest'.head? = rest.head?

private theorem Spans.mem_of_has {s : Spans} {n : Nat} (h : s.has n = true) :
    n ∈ s.flatMap fun x => List.range' x.1 (x.2 + 1 - x.1) := by
  induction s with
  | nil => cases h
  | cons x s ih =>
    simp only [Spans.has] at h
    split at h
    · cases h
    · rw [Bool.or_eq_true, decide_eq_true_eq] at h
      rw [List.flatMap_cons, List.mem_append, List.mem_range'_1]
      rcases h with h | h
      · exact .inl (by omega)
      · exact .inr (ih h)

private theorem isSymbolChar_of_isBlank (h : isBlank c = true) : isSymbolChar c = false := by
  have hall : ∀ n ∈ blankSpans.flatMap fun x => List.range' x.1 (x.2 + 1 - x.1),
      isSymbolChar (Char.ofNat n) = false := by
    decide +kernel
  simpa using hall _ (Spans.mem_of_has h)

private theorem Replaces.gap (h : Gap false g false) (cs : List Char) : Replaces (g ++ cs) cs := by
  cases h with
  | nil => exact .inr rfl
  | blank hc => exact .inl (.cons (isSymbolChar_of_isBlank hc))
  | opens => exact .inl (.cons (by decide))

private theorem Replaces.insert (h : Gap false g false) (front back : List Char) :
    Replaces (front ++ (g ++ back)) (front ++ back) := by
  cases front with
  | nil => exact .gap h back
  | cons => exact .inr rfl

private theorem Replaces.stops {P : Char → Bool} (hP : ∀ c, P c = true → isSymbolChar c = true)
    (hr : Replaces rest' rest) (h : ∀ c ∈ rest.head?, P c = false) : ∀ c ∈ rest'.head?, P c = false := by
  rcases hr with hs | he
  · intro c hc
    rw [Bool.eq_false_iff]
    intro hp
    have := hs c hc
    rw [hP c hp] at this
    cases this
  · rwa [he]

private theorem Replaces.takeWhile {P : Char → Bool} (hP : ∀ c, P c = true → isSymbolChar c = true)
    (hr : Replaces rest' rest) (h : (v ++ rest).dropWhile P = rest) :
    (v ++ rest).takeWhile P = v ∧ (v ++ rest').takeWhile P = v ∧ (v ++ rest').dropWhile P = rest' := by
  have htake : (v ++ rest).takeWhile P = v := by
    have := List.takeWhile_append_dropWhile (p := P) (l := v ++ rest)
    rw [h] at this
    exact List.append_cancel_right this
  have hall : v.all P = true := by
    rw [← htake]
    exact List.all_takeWhile
  have hrest : ∀ c ∈ rest.head?, P c = false := by
    intro c hc
    have := List.head?_dropWhile_not P (v ++ rest)
    rw [h, hc] at this
    simpa using this
  exact ⟨htake, takeWhile_append hall (hr.stops hP hrest)⟩

private theorem Quotes.read {body s : List Char} (h : Quotes body s) (p : Pos) (rest : List Char) :
    ∃ r, stringBody p (body ++ '"' :: rest) = .ok (s, r, rest) := by
  induction h generalizing p with
  | nil => exact ⟨_, stringBody_close⟩
  | @raw c _ _ hq hb h0 _ ih =>
    obtain ⟨r, hr⟩ := ih (p.after c)
    exact ⟨r, by rw [List.cons_append, stringBody_raw hq h0 hb, hr]; rfl⟩
  | @escape e _ _ _ he _ ih =>
    obtain ⟨r, hr⟩ := ih (p.past ['\\', e])
    exact ⟨r, by rw [List.cons_append, List.cons_append, stringBody_escaped he, hr]; rfl⟩

/-- A token ends where it does whatever follows, unless it could go on. -/
private theorem lexeme_replaced (h : lexeme p c (v ++ rest) = .ok (l, r, rest)) (hr : Replaces rest' rest) (q : Pos) :
    ∃ r', lexeme q c (v ++ rest') = .ok (l, r', rest') := by
  unfold lexeme at h ⊢
  split at h
  · simp only [Except.ok.injEq, Prod.mk.injEq, List.append_left_eq_self] at h
    obtain ⟨rfl, -, rfl⟩ := h
    exact ⟨_, rfl⟩
  · split at h
    · rename_i hq
      obtain ⟨⟨s, r, _⟩, hs, h⟩ := Partial.map_eq_ok.mp h
      cases h
      obtain ⟨body, hv, hbody⟩ := stringBody_quotes hs
      obtain rfl : v = body ++ ['"'] := by
        rw [← List.singleton_append, ← List.append_assoc] at hv
        exact List.append_cancel_right hv
      obtain ⟨r', hr'⟩ := hbody.read (q.after c) rest'
      exact ⟨r', by rw [if_pos hq, List.append_assoc, List.singleton_append, hr']; rfl⟩
    · rename_i hq
      rw [if_neg hq]
      split at h
      · rename_i hi
        simp only [Except.ok.injEq, Prod.mk.injEq] at h
        obtain ⟨rfl, -, hdrop⟩ := h
        obtain ⟨htake, htake', hdrop'⟩ := hr.takeWhile (fun _ => isSymbolChar_of_isDecimal) hdrop
        rw [← startsInteger_takeWhile (fun _ => id), htake, ← htake', startsInteger_takeWhile (fun _ => id)] at hi
        rw [if_pos hi, htake, htake', hdrop']
        exact ⟨_, rfl⟩
      · rename_i hi
        split at h
        · rename_i hc
          simp only [Except.ok.injEq, Prod.mk.injEq] at h
          obtain ⟨rfl, -, hdrop⟩ := h
          obtain ⟨htake, htake', hdrop'⟩ := hr.takeWhile (fun _ => id) hdrop
          rw [← startsInteger_takeWhile (fun _ => isSymbolChar_of_isDecimal), htake, ← htake',
            startsInteger_takeWhile (fun _ => isSymbolChar_of_isDecimal)] at hi
          rw [if_neg hi, if_pos hc, htake, htake', hdrop']
          exact ⟨_, rfl⟩
        · cases h

private theorem Step.gap (h : Step p g v t r rest) : Gap false g false ∧ nul ∉ g := by
  obtain ⟨c, v, rfl, h0, -⟩ := h.reads
  obtain ⟨g', b, he, hg, hn, hb⟩ := skipGap_gap h.passes
  obtain rfl := List.append_cancel_right he
  cases b with
  | false => exact ⟨hg, hn⟩
  | true => exact absurd (hb rfl c rfl) h0

private theorem Step.lexemesOf (h : Step p g v t r rest) (hr : Replaces rest' rest) :
    lexemesOf (v ++ rest') = (t.lexeme :: (lexemesOf rest').1, (lexemesOf rest').2) := by
  obtain ⟨c, v, rfl, h0, hl⟩ := h.reads
  have hb : isBlank c = false := skipGap_front h.passes h0
  have hc : c ≠ ';' := by
    rintro rfl
    cases hl
  obtain ⟨r', hl'⟩ := lexeme_replaced hl hr .start
  have hs : Scans .start (c :: (v ++ rest')) [⟨t.lexeme, .start⟩] r' rest' := .token hb hc h0 hl'
  have hrest := lexAt_moved r' .start rest'
  simp only [Lexed.bare, Prod.mk.injEq] at hrest
  simp only [Datum.lexemesOf, Lexed.bare, List.cons_append]
  rw [hs]
  simp [hrest]

/-- A gap in front of a token or behind it does not change what the text is cut into. -/
private theorem Stands.lexemesOf_gap (h : Stands p cs before v t after) (hg : Gap false g false) (h0 : nul ∉ g) :
    lexemesOf (before ++ g ++ v ++ after) = lexemesOf cs ∧ lexemesOf (before ++ v ++ g ++ after) = lexemesOf cs := by
  induction h with
  | @first p r gap w after t h =>
    obtain ⟨hgap, hn⟩ := h.gap
    have hkeep : Datum.lexemesOf (w ++ after) = _ := h.lexemesOf (.inr rfl)
    have hmore : Datum.lexemesOf (w ++ (g ++ after)) = _ := h.lexemesOf (.gap hg after)
    simp only [List.append_assoc, Datum.lexemesOf_gap hgap hn, Datum.lexemesOf_gap hg h0, hkeep, hmore]
    exact ⟨trivial, trivial⟩
  | @later p r gap v rest before w after t u h ht ih =>
    obtain ⟨hgap, hn⟩ := h.gap
    have hr := Replaces.insert hg before (w ++ after)
    have hr' := Replaces.insert hg (before ++ w) after
    rw [← ht.text_eq] at hr
    rw [List.append_assoc before w after, ← ht.text_eq] at hr'
    have hkeep : Datum.lexemesOf (v ++ rest) = _ := h.lexemesOf (.inr rfl)
    have hmore := h.lexemesOf hr
    have hmore' := h.lexemesOf hr'
    simp only [List.append_assoc] at hmore hmore' ih ⊢
    simp only [Datum.lexemesOf_gap hgap hn, hkeep, hmore, hmore', ih.1, ih.2]
    exact ⟨trivial, trivial⟩

/-! ### Every token stands somewhere -/

private theorem Step.scans (h : Step p g w t r rest) : Scans p (g ++ (w ++ rest)) [t] r rest := by
  obtain ⟨c, v, rfl, h0, hl⟩ := h.reads
  have hb : isBlank c = false := skipGap_front h.passes h0
  have hc : c ≠ ';' := by
    rintro rfl
    cases hl
  have hstay : skipGap false t.pos (c :: (v ++ rest)) = (t.pos, c :: (v ++ rest)) := by simp [skipGap, hb, hc]
  exact (Scans.skipped (h.passes.trans hstay.symm) (by simp)).trans (.token hb hc h0 hl)

private theorem Stands.mem (h : Stands p cs before w t after) : t ∈ (lexAt p cs).tokens := by
  induction h with
  | first h =>
    rw [h.scans]
    exact List.mem_cons_self ..
  | later h _ ih =>
    rw [h.scans]
    exact List.mem_cons_of_mem _ ih

private theorem stands_of_mem {n : Nat} (h : t ∈ (lexFrom n p cs).tokens) :
    ∃ before w after, Stands p cs before w t after := by
  induction n generalizing p cs with
  | zero => cases h
  | succ n ih =>
    unfold lexFrom at h
    split at h
    · cases h
    · rename_i q c cs' hgap
      split at h
      · cases h
      · rename_i h0
        split at h
        · cases h
        · rename_i l r rest hl
          obtain ⟨gap, b, rfl, -⟩ := skipGap_gap hgap
          obtain ⟨w, hw, hwl⟩ := lexeme_writes (skipGap_front hgap h0) hl
          obtain ⟨_, v, rfl⟩ := List.exists_cons_of_ne_nil hwl.ne_nil
          obtain ⟨rfl, rfl⟩ := List.cons.inj hw
          have hstep : Step p gap (c :: v) ⟨l, q⟩ r rest := ⟨hgap, c, v, rfl, h0, hl⟩
          rcases List.mem_cons.mp h with rfl | h
          · exact ⟨_, _, _, .first hstep⟩
          · obtain ⟨before, w, after, ht⟩ := ih h
            exact ⟨_, _, _, .later hstep ht⟩

theorem mem_tokens_iff_stands : t ∈ (lexAt p cs).tokens ↔ ∃ before w after, Stands p cs before w t after := by
  constructor
  · exact stands_of_mem
  · rintro ⟨before, w, after, h⟩
    exact h.mem

/-! ### The datum depends on the lexemes only -/

private theorem bareEntries_append (es fs : List (String × Datum)) :
    bareEntries (es ++ fs) = bareEntries es ++ bareEntries fs := by
  induction es with
  | nil => rfl
  | cons e es ih => simp [bareEntries, ih]

private theorem bareEntries_addNote (es : List (String × Datum)) (k : String) (d : Datum) :
    bareEntries (addNote es k d) = addNote (bareEntries es) k d.bare := by
  induction es with
  | nil => rfl
  | cons e es ih =>
    simp only [addNote, bareEntries]
    split <;> simp [bareEntries, ih]

private theorem bareEntries_addNotes (es fs : List (String × Datum)) :
    bareEntries (addNotes es fs) = addNotes (bareEntries es) (bareEntries fs) := by
  induction fs generalizing es with
  | nil => rfl
  | cons f fs ih =>
    calc bareEntries (addNotes (addNote es f.1 f.2) fs)
      _ = addNotes (bareEntries (addNote es f.1 f.2)) (bareEntries fs) := ih _
      _ = addNotes (bareEntries es) (bareEntries (f :: fs)) := by
        rw [bareEntries_addNote]
        rfl

private theorem eq_cons_of_map {us : List Token} {ls : List Lexeme} (h : us.map Token.lexeme = l :: ls) :
    ∃ p vs, us = ⟨l, p⟩ :: vs ∧ vs.map Token.lexeme = ls := by
  obtain ⟨⟨_, p⟩, vs, rfl, rfl, hvs⟩ := List.map_eq_cons_iff.mp h
  exact ⟨p, vs, rfl, hvs⟩

mutual

private theorem Spells.respelled : ∀ {ts us : List Token} {d : Datum}, Spells ts d →
    us.map Token.lexeme = ts.map Token.lexeme → ∃ d', Spells us d' ∧ d'.bare = d.bare
  | _, us, _, .symbol p s, h => by
    obtain ⟨q, _, rfl, h₁⟩ := eq_cons_of_map h
    obtain rfl := List.map_eq_nil_iff.mp h₁
    exact ⟨_, .symbol q s, rfl⟩
  | _, us, _, .string p s, h => by
    obtain ⟨q, _, rfl, h₁⟩ := eq_cons_of_map h
    obtain rfl := List.map_eq_nil_iff.mp h₁
    exact ⟨_, .string q s, rfl⟩
  | _, us, _, .integer p hn, h => by
    obtain ⟨q, _, rfl, h₁⟩ := eq_cons_of_map h
    obtain rfl := List.map_eq_nil_iff.mp h₁
    exact ⟨_, .integer q hn, rfl⟩
  | _, us, _, .list p q hs, h => by
    rw [List.map_cons, List.map_append] at h
    obtain ⟨p', _, rfl, h₁⟩ := eq_cons_of_map h
    obtain ⟨ts', _, rfl, hts, h₂⟩ := List.map_eq_append_iff.mp h₁
    obtain ⟨q', _, rfl, h₃⟩ := eq_cons_of_map h₂
    obtain rfl := List.map_eq_nil_iff.mp h₃
    obtain ⟨items', notes', hs', hi, hn⟩ := hs.respelled hts
    refine ⟨_, .list p' q' hs', ?_⟩
    simp only [bare, bareEntries_addNotes, hi, hn]
  | _, us, _, .map p q hs, h => by
    rw [List.map_cons, List.map_append] at h
    obtain ⟨p', _, rfl, h₁⟩ := eq_cons_of_map h
    obtain ⟨ts', _, rfl, hts, h₂⟩ := List.map_eq_append_iff.mp h₁
    obtain ⟨q', _, rfl, h₃⟩ := eq_cons_of_map h₂
    obtain rfl := List.map_eq_nil_iff.mp h₃
    obtain ⟨entries', hs', he⟩ := hs.respelled hts
    refine ⟨_, .map p' q' hs', ?_⟩
    simp only [bare, he]

private theorem SpellsItems.respelled : ∀ {ts us : List Token} {items : List Datum} {notes : List (String × Datum)},
    SpellsItems ts items notes → us.map Token.lexeme = ts.map Token.lexeme →
    ∃ items' notes', SpellsItems us items' notes' ∧ bareAll items' = bareAll items ∧
      bareEntries notes' = bareEntries notes
  | _, _, _, _, .nil, h => by
    obtain rfl := List.map_eq_nil_iff.mp h
    exact ⟨[], [], .nil, rfl, rfl⟩
  | _, _, _, _, .item hd hs, h => by
    rw [List.map_append] at h
    obtain ⟨ts', us', rfl, hts, hus⟩ := List.map_eq_append_iff.mp h
    obtain ⟨d', hd', hb⟩ := hd.respelled hts
    obtain ⟨items', notes', hs', hi, hn⟩ := hs.respelled hus
    exact ⟨_, _, .item hd' hs', by simp only [bareAll, hb, hi], hn⟩
  | _, _, _, _, .notes p q r he hs, h => by
    simp only [List.map_cons, List.map_append] at h
    obtain ⟨p', _, rfl, h₁⟩ := eq_cons_of_map h
    obtain ⟨q', _, rfl, h₂⟩ := eq_cons_of_map h₁
    obtain ⟨ts', _, rfl, hts, h₃⟩ := List.map_eq_append_iff.mp h₂
    obtain ⟨r', us', rfl, hus⟩ := eq_cons_of_map h₃
    obtain ⟨entries', he', hb⟩ := he.respelled hts
    obtain ⟨items', notes', hs', hi, hn⟩ := hs.respelled hus
    exact ⟨_, _, .notes p' q' r' he' hs', hi, by simp only [bareEntries_append, hb, hn]⟩

private theorem SpellsEntries.respelled : ∀ {ts us : List Token} {entries : List (String × Datum)},
    SpellsEntries ts entries → us.map Token.lexeme = ts.map Token.lexeme →
    ∃ entries', SpellsEntries us entries' ∧ bareEntries entries' = bareEntries entries
  | _, _, _, .nil, h => by
    obtain rfl := List.map_eq_nil_iff.mp h
    exact ⟨[], .nil, rfl⟩
  | _, _, _, .last p q k hd, h => by
    simp only [List.map_cons] at h
    obtain ⟨p', _, rfl, h₁⟩ := eq_cons_of_map h
    obtain ⟨q', ts', rfl, hts⟩ := eq_cons_of_map h₁
    obtain ⟨d', hd', hb⟩ := hd.respelled hts
    exact ⟨_, .last p' q' k hd', by simp only [bareEntries, hb]⟩
  | _, _, _, .more p q r k hd hs, h => by
    simp only [List.map_cons, List.map_append] at h
    obtain ⟨p', _, rfl, h₁⟩ := eq_cons_of_map h
    obtain ⟨q', _, rfl, h₂⟩ := eq_cons_of_map h₁
    obtain ⟨ts', _, rfl, hts, h₃⟩ := List.map_eq_append_iff.mp h₂
    obtain ⟨r', us', rfl, hus⟩ := eq_cons_of_map h₃
    obtain ⟨d', hd', hb⟩ := hd.respelled hts
    obtain ⟨entries', hs', he⟩ := hs.respelled hus
    exact ⟨_, .more p' q' r' k hd' hs', by simp only [bareEntries, hb, he]⟩

end

/-- Texts that are cut into the same lexemes give the same datum, positions apart. -/
theorem parse_of_lexemes {text text' : String} {d : Datum} (h : Datum.parse text = .ok d)
    (he : lexemesOf text'.toList = lexemesOf text.toList) : ∃ d', Datum.parse text' = .ok d' ∧ d'.bare = d.bare := by
  obtain ⟨hd, p, hend⟩ := parse_eq_ok_iff.mp h
  have hlex : ∀ cs, lexemesOf cs = ((lex cs).tokens.map Token.lexeme, (lex cs).ending.error?) := fun _ => rfl
  rw [hlex, hlex, hend, Prod.mk.injEq] at he
  obtain ⟨d', hs, hb⟩ := hd.respelled he.1
  refine ⟨d', parse_eq_ok_iff.mpr ⟨hs, ?_⟩, hb⟩
  cases hend' : (lex text'.toList).ending with
  | finished p => exact ⟨p, rfl⟩
  | failed =>
    rw [hend'] at he
    cases he.2

/-- Every token of an accepted text stands somewhere in it. A gap, with its comments closed, may be put in front of the
token or behind it: the text is accepted with the same datum, positions apart. -/
theorem spacing_irrelevant {text : String} {d : Datum} (h : Datum.parse text = .ok d) :
    (∀ t, t ∈ (lex text.toList).tokens ↔ ∃ before w after, Stands .start text.toList before w t after) ∧
      ∀ before w t after, Stands .start text.toList before w t after → ∀ gap, Gap false gap false → nul ∉ gap →
        (∃ d', Datum.parse (String.ofList (before ++ gap ++ w ++ after)) = .ok d' ∧ d'.bare = d.bare) ∧
        ∃ d', Datum.parse (String.ofList (before ++ w ++ gap ++ after)) = .ok d' ∧ d'.bare = d.bare := by
  refine ⟨fun t => mem_tokens_iff_stands, ?_⟩
  intro before w t after ht gap hg h0
  obtain ⟨hfront, hback⟩ := ht.lexemesOf_gap hg h0
  constructor
  · exact parse_of_lexemes h (by rw [String.toList_ofList, hfront])
  · exact parse_of_lexemes h (by rw [String.toList_ofList, hback])

/-- A number and a symbol that touch, and a comment put between them. -/
theorem touching_tokens_spaced :
    ∃ d d', Datum.parse "(-1a)" = .ok d ∧ Datum.parse "(-1; one\na)" = .ok d' ∧ d'.bare = d.bare := by
  obtain ⟨d, h⟩ : ∃ d, Datum.parse "(-1a)" = .ok d := Partial.exists_eq_ok (by decide +kernel)
  have hopen : Step .start [] ['('] ⟨.lparen, ⟨1, 1⟩⟩ ⟨1, 2⟩ ['-', '1', 'a', ')'] := ⟨rfl, _, _, rfl, by decide, rfl⟩
  have hnumber : Step ⟨1, 2⟩ [] ['-', '1'] ⟨.integer "-1", ⟨1, 2⟩⟩ ⟨1, 4⟩ ['a', ')'] := ⟨rfl, _, _, rfl, by decide, rfl⟩
  have hgap : Gap false "; one\n".toList false := by
    refine .opens ?_
    repeat refine .inside (by decide) ?_
    exact .closes (.nil _)
  obtain ⟨-, hspaced⟩ := spacing_irrelevant h
  obtain ⟨-, d', h', hb⟩ := hspaced _ _ _ _ (.later hopen (.first hnumber)) _ hgap (by decide)
  exact ⟨d, d', h, h', hb⟩

end WhileStack.Datum
