import WhileStack.Proofs.Datum.Lexing
import WhileStack.Text.Integer

/-! Integers in decimal notation. -/
namespace WhileStack.Text

theorem digitsValue?_of_isDigit {cs : List Char} (hne : cs ≠ []) (h : ∀ c ∈ cs, c.isDigit = true) :
    digitsValue? cs = some (Nat.ofDigitChars 10 cs 0) := by
  have hfold (n : Nat) : cs.foldl
      (fun acc c => acc.bind fun n => if c.isDigit then some (10 * n + (c.toNat - 48)) else none) (some n) =
      some (Nat.ofDigitChars 10 cs n) := by
    clear hne
    induction cs generalizing n with
    | nil => rfl
    | cons c cs ih =>
      have hc := h c (List.mem_cons_self ..)
      simp only [List.foldl_cons, Option.bind_some, hc, if_true]
      rw [ih fun d hd => h d (List.mem_cons_of_mem _ hd), Nat.ofDigitChars_cons]
      rfl
  cases cs with
  | nil => contradiction
  | cons c cs => exact hfold 0

private theorem isDigit_of_mem_toDigits {c : Char} {n : Nat} (h : c ∈ Nat.toDigits 10 n) : c.isDigit = true :=
  Nat.isDigit_of_mem_toDigits (by decide) (by decide) h

theorem digitsValue?_toDigits (n : Nat) : digitsValue? (Nat.toDigits 10 n) = some n := by
  rw [digitsValue?_of_isDigit Nat.toDigits_ne_nil fun _ => isDigit_of_mem_toDigits, Nat.ofDigitChars_ten_toDigits]

/-- The notation of an integer: its digits, behind a sign if it is negative. -/
private theorem toList_repr_int (n : Int) : n.repr.toList =
    if 0 ≤ n then Nat.toDigits 10 n.toNat else '-' :: Nat.toDigits 10 (-n).toNat := by
  rw [Int.repr_eq_if]
  split <;> simp

private theorem signedValue?_digits (n : Nat) : signedValue? (Nat.toDigits 10 n) = some (n : Int) := by
  have hv := digitsValue?_toDigits n
  have hd : ∀ c ∈ Nat.toDigits 10 n, c.isDigit = true := fun _ => isDigit_of_mem_toDigits
  unfold signedValue?
  split
  · rename_i hcs
    exact absurd (hd '-' (hcs ▸ List.mem_cons_self ..)) (by decide)
  · rename_i hcs
    exact absurd (hd '+' (hcs ▸ List.mem_cons_self ..)) (by decide)
  · rw [hv]
    rfl

theorem signedValue?_repr (n : Int) : signedValue? n.repr.toList = some n := by
  rw [toList_repr_int]
  split
  · rw [signedValue?_digits, Int.toNat_of_nonneg ‹0 ≤ n›]
  · have hn : ((-n).toNat : Int) = -n := Int.toNat_of_nonneg (by omega)
    simp [signedValue?, digitsValue?_toDigits, hn]

theorem readInt64?_repr {n : Int} (h : InInt64 n) : readInt64? n.repr.toList = some n := by
  rw [readInt64?, signedValue?_repr]
  simp [h]

private theorem toNat_of_isDigit {c : Char} (h : c.isDigit = true) : 48 ≤ c.toNat ∧ c.toNat ≤ 57 := by
  simpa [Char.isDigit, UInt32.le_iff_toNat_le] using h

private theorem isDecimal_of_isDigit {c : Char} (h : c.isDigit = true) : isDecimal c = true := by
  have hc := toNat_of_isDigit h
  simp [isDecimal, h, show c.toNat < 128 by omega]

private theorem not_isBlank_of_isDigit {c : Char} (h : c.isDigit = true) : isBlank c = false := by
  have hc := toNat_of_isDigit h
  simp [isBlank, blankSpans, Spans.has, show ¬c.toNat ≤ 13 by omega, show ¬c.toNat ≤ 32 by omega,
    show c.toNat < 133 by omega]

private theorem toDigits_eq_cons (n : Nat) :
    ∃ c cs, Nat.toDigits 10 n = c :: cs ∧ c.isDigit = true ∧ cs.all isDecimal = true := by
  have hd : ∀ c ∈ Nat.toDigits 10 n, c.isDigit = true := fun _ => isDigit_of_mem_toDigits
  cases hcs : Nat.toDigits 10 n with
  | nil => exact absurd hcs Nat.toDigits_ne_nil
  | cons c cs =>
    rw [hcs, List.forall_mem_cons] at hd
    exact ⟨c, cs, rfl, hd.1, List.all_eq_true.mpr fun d h => isDecimal_of_isDigit (hd.2 d h)⟩

theorem isNumberText_repr (n : Int) : Datum.isNumberText n.repr.toList = true := by
  rw [toList_repr_int]
  split
  · obtain ⟨c, cs, hcs, hc, hall⟩ := toDigits_eq_cons n.toNat
    rw [hcs]
    simp [-List.all_eq_true, Datum.isNumberText, Datum.startsInteger, not_isBlank_of_isDigit hc, isDecimal_of_isDigit hc,
      hall]
  · obtain ⟨c, cs, hcs, hc, hall⟩ := toDigits_eq_cons (-n).toNat
    have hb : isBlank '-' = false := by decide
    rw [hcs]
    simp [-List.all_eq_true, Datum.isNumberText, Datum.startsInteger, hb, isDecimal_of_isDigit hc, hall]

/-- Decimal notation of an integer of 64 bits: at least one digit, with a sign in front or none. -/
inductive Notates64 : List Char → Int → Prop
  | plain {ds : List Char} (hne : ds ≠ []) (h : ∀ c ∈ ds, c.isDigit = true) (hr : InInt64 (Nat.ofDigitChars 10 ds 0)) :
    Notates64 ds (Nat.ofDigitChars 10 ds 0)
  | plus {ds : List Char} (hne : ds ≠ []) (h : ∀ c ∈ ds, c.isDigit = true) (hr : InInt64 (Nat.ofDigitChars 10 ds 0)) :
    Notates64 ('+' :: ds) (Nat.ofDigitChars 10 ds 0)
  | minus {ds : List Char} (hne : ds ≠ []) (h : ∀ c ∈ ds, c.isDigit = true)
    (hr : InInt64 (-(Nat.ofDigitChars 10 ds 0 : Int))) : Notates64 ('-' :: ds) (-(Nat.ofDigitChars 10 ds 0 : Int))

private theorem digitsValue?_eq_some {cs : List Char} {n : Nat} (h : digitsValue? cs = some n) :
    cs ≠ [] ∧ (∀ c ∈ cs, c.isDigit = true) ∧ n = Nat.ofDigitChars 10 cs 0 := by
  have hnone (ds : List Char) : ds.foldl
      (fun acc c => acc.bind fun n => if c.isDigit then some (10 * n + (c.toNat - 48)) else none) none = none := by
    induction ds with
    | nil => rfl
    | cons d ds ih => exact ih
  have hfold (m : Nat) : cs.foldl
      (fun acc c => acc.bind fun n => if c.isDigit then some (10 * n + (c.toNat - 48)) else none) (some m) = some n →
      ∀ c ∈ cs, c.isDigit = true := by
    clear h
    induction cs generalizing m with
    | nil => intro _ c hc; cases hc
    | cons d ds ih =>
      intro h
      rw [List.foldl_cons, Option.bind_some] at h
      by_cases hd : d.isDigit = true
      · rw [if_pos hd] at h
        exact List.forall_mem_cons.mpr ⟨hd, ih _ h⟩
      · rw [if_neg hd, hnone] at h
        cases h
  have hne : cs ≠ [] := by
    rintro rfl
    cases h
  have hall : ∀ c ∈ cs, c.isDigit = true := by
    cases cs with
    | nil => contradiction
    | cons c cs => exact hfold 0 h
  refine ⟨hne, hall, ?_⟩
  rw [digitsValue?_of_isDigit hne hall] at h
  exact (Option.some.inj h).symm

theorem readInt64?_eq_some_iff {cs : List Char} {n : Int} : readInt64? cs = some n ↔ Notates64 cs n := by
  constructor
  · intro h
    obtain ⟨hv, hr⟩ := Option.filter_eq_some_iff.mp h
    have hr : InInt64 n := by simpa using hr
    unfold signedValue? at hv
    split at hv
    · rename_i ds
      cases hd : digitsValue? ds with
      | none => simp [hd] at hv
      | some m =>
        obtain ⟨hne, hall, rfl⟩ := digitsValue?_eq_some hd
        obtain rfl : -(Nat.ofDigitChars 10 ds 0 : Int) = n := by simpa [hd] using hv
        exact .minus hne hall hr
    · rename_i ds
      cases hd : digitsValue? ds with
      | none => simp [hd] at hv
      | some m =>
        obtain ⟨hne, hall, rfl⟩ := digitsValue?_eq_some hd
        obtain rfl : (Nat.ofDigitChars 10 ds 0 : Int) = n := by simpa [hd] using hv
        exact .plus hne hall hr
    · cases hd : digitsValue? cs with
      | none => simp [hd] at hv
      | some m =>
        obtain ⟨hne, hall, rfl⟩ := digitsValue?_eq_some hd
        obtain rfl : (Nat.ofDigitChars 10 cs 0 : Int) = n := by simpa [hd] using hv
        exact .plain hne hall hr
  · intro h
    cases h with
    | plain hne h hr =>
      have hv : signedValue? cs = (digitsValue? cs).map fun n => (n : Int) := by
        unfold signedValue?
        split
        · exact absurd (h '-' (List.mem_cons_self ..)) (by decide)
        · exact absurd (h '+' (List.mem_cons_self ..)) (by decide)
        · rfl
      simp [readInt64?, hv, digitsValue?_of_isDigit hne h, hr]
    | plus hne h hr => simp [readInt64?, signedValue?, digitsValue?_of_isDigit hne h, hr]
    | minus hne h hr => simp [readInt64?, signedValue?, digitsValue?_of_isDigit hne h, hr]

theorem Notates64.unique {cs : List Char} {m n : Int} (h : Notates64 cs m) (h' : Notates64 cs n) : m = n := by
  rw [← readInt64?_eq_some_iff] at h h'
  exact Option.some.inj (h.symm.trans h')

end WhileStack.Text
