import WhileStack.Proofs.Datum.Grammar

/-! Where the reader stops when it gives no datum: at one of the tokens it was given, or behind the last. The bound on the
nesting of calls is never what stops it. -/
namespace WhileStack.Datum
open WhileStack.Text

/-! ### The refused token -/

/-- No call of the reader refuses a token that it was not given. -/
private structure Refuses (n : Nat) : Prop where
  datum : ∀ {ts r}, readDatum n ts = .error r → r.rest <:+ ts
  items : ∀ {ts r}, readItems n ts = .error r → r.rest <:+ ts
  entries : ∀ {ts r}, readEntries n ts = .error r → r.rest <:+ ts

private theorem Refuses.readDatum {n : Nat} (ih : Refuses n) {ts : List Token} {r : Refusal}
    (h : readDatum (n + 1) ts = .error r) : r.rest <:+ ts := by
  cases ts with
  | nil =>
    cases h
    exact List.suffix_refl _
  | cons t ts =>
    obtain ⟨l, p⟩ := t
    cases l with
    | symbol s | string s => cases h
    | integer s =>
      simp only [Datum.readDatum] at h
      split at h
      · cases h
      · cases h
        exact List.suffix_refl _
    | lparen =>
      simp only [Datum.readDatum] at h
      rcases Partial.then_eq_error.mp h with hi | ⟨a, -, h⟩
      · exact (ih.items hi).trans (List.suffix_cons ..)
      · cases h
    | lbrace =>
      simp only [Datum.readDatum] at h
      rcases Partial.then_eq_error.mp h with he | ⟨a, -, h⟩
      · exact (ih.entries he).trans (List.suffix_cons ..)
      · cases h
    | rparen | rbrace | colon | comma | caret =>
      cases h
      exact List.suffix_refl _

private theorem Refuses.readItems {n : Nat} (ih : Refuses n) {ts : List Token} {r : Refusal}
    (h : readItems (n + 1) ts = .error r) : r.rest <:+ ts := by
  cases ts with
  | nil =>
    cases h
    exact List.suffix_refl _
  | cons t ts =>
    obtain ⟨l, p⟩ := t
    cases l with
    | rparen => cases h
    | caret =>
      simp only [Datum.readItems] at h
      split at h
      · rename_i q ts
        apply List.IsSuffix.trans _ ((List.suffix_cons ..).trans (List.suffix_cons ..))
        rcases Partial.then_eq_error.mp h with he | ⟨⟨entries, rest⟩, he, hr⟩
        · exact ih.entries he
        · obtain ⟨us, q', rfl, -⟩ := readEntries_spells he
          rcases Partial.then_eq_error.mp hr with hi | ⟨a, -, hr⟩
          · exact (ih.items hi).trans ((List.suffix_cons ..).trans (List.suffix_append ..))
          · cases hr
      · cases h
        exact List.suffix_cons ..
    | symbol | string | integer | lparen | rbrace | lbrace | colon | comma =>
      simp only [Datum.readItems] at h
      rcases Partial.then_eq_error.mp h with hd | ⟨⟨d, rest⟩, hd, h⟩
      · exact ih.datum hd
      · obtain ⟨us, hus, -⟩ := readDatum_spells hd
        rw [hus]
        rcases Partial.then_eq_error.mp h with hi | ⟨a, -, h⟩
        · exact (ih.items hi).trans (List.suffix_append ..)
        · cases h

private theorem Refuses.readEntries {n : Nat} (ih : Refuses n) {ts : List Token} {r : Refusal}
    (h : readEntries (n + 1) ts = .error r) : r.rest <:+ ts := by
  cases ts with
  | nil =>
    cases h
    exact List.suffix_refl _
  | cons t ts =>
    obtain ⟨l, p⟩ := t
    cases l with
    | rbrace => cases h
    | symbol k =>
      simp only [Datum.readEntries] at h
      split at h
      · rename_i q ts
        apply List.IsSuffix.trans _ ((List.suffix_cons ..).trans (List.suffix_cons ..))
        rcases Partial.then_eq_error.mp h with hd | ⟨⟨d, rest⟩, hd, hr⟩
        · exact ih.datum hd
        · obtain ⟨us, rfl, -⟩ := readDatum_spells hd
          apply List.IsSuffix.trans _ (List.suffix_append ..)
          dsimp only at hr
          split at hr
          · rcases Partial.then_eq_error.mp hr with he | ⟨a, -, hr⟩
            · exact (ih.entries he).trans (List.suffix_cons ..)
            · cases hr
          · cases hr
          · cases hr
            exact List.suffix_refl _
      · cases h
        exact List.suffix_cons ..
    | string | integer | lparen | rparen | lbrace | colon | comma | caret =>
      cases h
      exact List.suffix_refl _

private theorem refuses (n : Nat) : Refuses n := by
  induction n with
  | zero =>
    refine ⟨?_, ?_, ?_⟩ <;>
    · rintro ts r ⟨⟩
      exact List.suffix_refl _
  | succ n ih => exact ⟨ih.readDatum, ih.readItems, ih.readEntries⟩

/-- The reader stops at one of its tokens, or behind the last. -/
theorem readAll_refuses {ts : List Token} {r : Refusal} (h : readAll ts = .error r) : r.rest <:+ ts := by
  rcases Partial.then_eq_error.mp h with hd | ⟨⟨d, rest⟩, hd, hr⟩
  · exact (refuses _).datum hd
  · obtain ⟨us, rfl, -⟩ := readDatum_spells hd
    dsimp only at hr
    split at hr
    · cases hr
    · cases hr
      exact List.suffix_append ..

/-! ### The bound -/

/-- One more call in depth changes nothing once there are two for each token. -/
private structure Bounded (n : Nat) : Prop where
  datum : ∀ {ts : List Token}, 2 * ts.length ≤ n → readDatum (n + 1) ts = readDatum n ts
  items : ∀ {ts : List Token}, 2 * ts.length < n → readItems (n + 1) ts = readItems n ts
  entries : ∀ {ts : List Token}, 2 * ts.length < n → readEntries (n + 1) ts = readEntries n ts

private theorem Bounded.readDatum {n : Nat} (ih : Bounded n) {ts : List Token} (h : 2 * ts.length ≤ n + 1) :
    readDatum (n + 2) ts = readDatum (n + 1) ts := by
  cases ts with
  | nil => rfl
  | cons t ts =>
    obtain ⟨l, p⟩ := t
    rw [List.length_cons] at h
    cases l with
    | lparen =>
      have hi : Datum.readItems (n + 1) ts = Datum.readItems n ts := ih.items (by omega)
      simp only [Datum.readDatum, hi]
    | lbrace =>
      have he : Datum.readEntries (n + 1) ts = Datum.readEntries n ts := ih.entries (by omega)
      simp only [Datum.readDatum, he]
    | symbol | string | integer | rparen | rbrace | colon | comma | caret => rfl

private theorem Bounded.readItems {n : Nat} (ih : Bounded n) {ts : List Token} (h : 2 * ts.length < n + 1) :
    readItems (n + 2) ts = readItems (n + 1) ts := by
  cases ts with
  | nil => rfl
  | cons t ts =>
    obtain ⟨l, p⟩ := t
    rw [List.length_cons] at h
    cases l with
    | rparen => rfl
    | caret =>
      simp only [Datum.readItems]
      split
      · rename_i q ts
        rw [List.length_cons] at h
        rw [ih.entries (by omega)]
        apply Partial.then_congr
        rintro ⟨entries, rest⟩ he
        obtain ⟨us, q', rfl, -⟩ := readEntries_spells he
        rw [List.length_append, List.length_cons] at h
        have hi : Datum.readItems (n + 1) rest = Datum.readItems n rest := ih.items (by omega)
        simp only [hi]
      · rfl
    | symbol | string | integer | lparen | rbrace | lbrace | colon | comma =>
      simp only [Datum.readItems]
      rw [ih.datum (by simpa using by omega)]
      apply Partial.then_congr
      rintro ⟨d, rest⟩ hd
      obtain ⟨us, hus, hs⟩ := readDatum_spells hd
      obtain ⟨l', p', vs, rfl, -⟩ := hs.head
      -- the item takes a token at least
      have hlen := congrArg List.length hus
      rw [List.length_cons, List.length_append, List.length_cons] at hlen
      have hi : Datum.readItems (n + 1) rest = Datum.readItems n rest := ih.items (by omega)
      simp only [hi]

private theorem Bounded.readEntries {n : Nat} (ih : Bounded n) {ts : List Token} (h : 2 * ts.length < n + 1) :
    readEntries (n + 2) ts = readEntries (n + 1) ts := by
  cases ts with
  | nil => rfl
  | cons t ts =>
    obtain ⟨l, p⟩ := t
    rw [List.length_cons] at h
    cases l with
    | symbol k =>
      simp only [Datum.readEntries]
      split
      · rename_i q ts
        rw [List.length_cons] at h
        rw [ih.datum (by omega)]
        apply Partial.then_congr
        rintro ⟨d, rest⟩ hd
        obtain ⟨us, rfl, -⟩ := readDatum_spells hd
        rw [List.length_append] at h
        dsimp only
        split
        · rename_i r ts
          rw [List.length_cons] at h
          rw [ih.entries (by omega)]
        · rfl
        · rfl
      · rfl
    | rbrace | string | integer | lparen | rparen | lbrace | colon | comma | caret => rfl

private theorem bounded (n : Nat) : Bounded n := by
  induction n with
  | zero => exact ⟨fun {ts} h => by cases ts with | nil => rfl | cons => simp at h, nofun, nofun⟩
  | succ n ih => exact ⟨ih.readDatum, ih.readItems, ih.readEntries⟩

/-- Two nested calls for each token are enough: more of them read the same datum, and stop at the same token. -/
theorem readDatum_eq {n : Nat} {ts : List Token} (h : 2 * ts.length ≤ n) :
    readDatum n ts = readDatum (2 * ts.length) ts := by
  induction h with
  | refl => rfl
  | step h ih => rw [(bounded _).datum h, ih]

end WhileStack.Datum
