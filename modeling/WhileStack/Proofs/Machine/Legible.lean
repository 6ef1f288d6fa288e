import WhileStack.Datum.Token
import WhileStack.Machine.Ty

/-! The names of machine types. Types that programs can be written with are told apart by their names: a name is read
from the left in one way only, however the types are nested. -/
namespace WhileStack.Machine.Ty
open Datum (isSymbolChar)

mutual

/-- Void, and types of values whose records name their fields with characters of symbols. -/
def isLegible : Ty → Bool
  | .void | .int | .boolean | .string => true
  | .list t => isLegible t
  | .record fs => areLegible fs
  | .array _ | .object _ | .other _ => false

def areLegible : List (String × Ty) → Bool
  | [] => true
  | (n, t) :: fs => n.toList.all isSymbolChar && isLegible t && areLegible fs

end

theorem isLegible_of_mem {fs : List (String × Ty)} (h : areLegible fs = true) {f : String × Ty} (hf : f ∈ fs) :
    f.2.isLegible = true := by
  induction fs with
  | nil => cases hf
  | cons g fs ih =>
    simp only [areLegible, Bool.and_eq_true] at h
    rcases List.mem_cons.mp hf with rfl | hf
    · exact h.1.2
    · exact ih h.2 hf

/-- The first character of a name, different for each kind of type. -/
private def initial : Ty → Char
  | .void => 'v'
  | .int => 'i'
  | .boolean => 'b'
  | .string => 's'
  | .list _ => 'l'
  | .record _ => '\x7b'
  | .array _ | .object _ | .other _ => ' '

private theorem text_eq_cons {t : Ty} (h : t.isLegible = true) : ∃ cs, t.text.toList = t.initial :: cs := by
  cases t with
  | void | int | boolean | string => exact ⟨_, rfl⟩
  | list t => exact ⟨"ist<".toList ++ t.text.toList ++ ['>'], by simp [text, initial]⟩
  | record fs => exact ⟨(",".intercalate (textFields fs)).toList ++ ['\x7d'], by simp [text, initial]⟩
  | array | object | other => cases h

/-- The names of the fields with a closing brace and what follows it. -/
private def fieldChars (fs : List (String × Ty)) (r : List Char) : List Char :=
  (",".intercalate (textFields fs)).toList ++ '\x7d' :: r

private theorem fieldChars_cons (n : String) (t : Ty) (fs : List (String × Ty)) (r : List Char) :
    fieldChars ((n, t) :: fs) r =
      n.toList ++ ':' :: (t.text.toList ++ if fs.isEmpty then '\x7d' :: r else ',' :: fieldChars fs r) := by
  cases fs with
  | nil => simp [fieldChars, textFields]
  | cons f fs => simp [fieldChars, textFields, String.intercalate_cons_cons]

private theorem not_mem_of_all {n : String} {c : Char} (h : n.toList.all isSymbolChar = true)
    (hc : isSymbolChar c = false) : c ∉ n.toList := by
  intro hm
  rw [List.all_eq_true.mp h c hm] at hc
  cases hc

/-- A character that is in neither front ends both at once. -/
private theorem append_cons_inj {c : Char} {as bs x y : List Char} (ha : c ∉ as) (hb : c ∉ bs)
    (h : as ++ c :: x = bs ++ c :: y) : as = bs ∧ x = y := by
  induction as generalizing bs with
  | nil =>
    cases bs with
    | nil => exact ⟨rfl, (List.cons.inj h).2⟩
    | cons b bs => exact absurd (List.cons.inj h).1 (List.ne_of_not_mem_cons hb)
  | cons a as ih =>
    cases bs with
    | nil => exact absurd (List.cons.inj h).1.symm (List.ne_of_not_mem_cons ha)
    | cons b bs =>
      obtain ⟨rfl, htail⟩ := List.cons.inj h
      obtain ⟨rfl, rfl⟩ := ih (List.not_mem_of_not_mem_cons ha) (List.not_mem_of_not_mem_cons hb) htail
      exact ⟨rfl, rfl⟩

private theorem close_ne_name {n : String} (h : n.toList.all isSymbolChar = true) {cs r : List Char} :
    '\x7d' :: r ≠ n.toList ++ ':' :: cs := by
  intro he
  have hclose := not_mem_of_all (c := '\x7d') h (by decide)
  cases hn : n.toList with
  | nil =>
    rw [hn] at he
    cases he
  | cons c ds =>
    rw [hn, List.cons_append] at he
    obtain ⟨rfl, -⟩ := List.cons.inj he
    rw [hn] at hclose
    exact hclose (List.mem_cons_self ..)

private theorem initial_eq {a b : Ty} (ha : a.isLegible = true) (hb : b.isLegible = true) {r s : List Char}
    (h : a.text.toList ++ r = b.text.toList ++ s) : a.initial = b.initial := by
  obtain ⟨cs, hcs⟩ := text_eq_cons ha
  obtain ⟨ds, hds⟩ := text_eq_cons hb
  rw [hcs, hds] at h
  exact (List.cons.inj h).1

mutual

/-- No name is the beginning of another one. -/
theorem text_append_inj : ∀ {a b : Ty}, a.isLegible = true → b.isLegible = true → ∀ {r s : List Char},
    a.text.toList ++ r = b.text.toList ++ s → a = b ∧ r = s
  | .void, b, ha, hb, _, _, h | .int, b, ha, hb, _, _, h | .boolean, b, ha, hb, _, _, h
  | .string, b, ha, hb, _, _, h => by
    have hi := initial_eq ha hb h
    cases b <;> simp [initial] at hi
    exact ⟨rfl, List.append_cancel_left h⟩
  | .list t, b, ha, hb, r, s, h => by
    have hi := initial_eq ha hb h
    cases b with
    | list u =>
      have h' : t.text.toList ++ '>' :: r = u.text.toList ++ '>' :: s := by simpa [text] using h
      obtain ⟨rfl, hr⟩ := text_append_inj (by simpa only [isLegible] using ha) (by simpa only [isLegible] using hb) h'
      exact ⟨rfl, (List.cons.inj hr).2⟩
    | _ => simp [initial] at hi
  | .record fs, b, ha, hb, r, s, h => by
    have hi := initial_eq ha hb h
    cases b with
    | record gs =>
      have h' : fieldChars fs r = fieldChars gs s := by simpa [text, fieldChars] using h
      obtain ⟨rfl, hr⟩ := fieldChars_inj (by simpa only [isLegible] using ha) (by simpa only [isLegible] using hb) h'
      exact ⟨rfl, hr⟩
    | _ => simp [initial] at hi
  | .array _, _, ha, _, _, _, _ | .object _, _, ha, _, _, _, _ | .other _, _, ha, _, _, _, _ => by cases ha

private theorem fieldChars_inj : ∀ {fs gs : List (String × Ty)}, areLegible fs = true → areLegible gs = true →
    ∀ {r s : List Char}, fieldChars fs r = fieldChars gs s → fs = gs ∧ r = s
  | [], [], _, _, r, s, h => ⟨rfl, by simpa [fieldChars, textFields] using h⟩
  | [], (m, u) :: gs, _, hg, r, s, h => by
    simp only [areLegible, Bool.and_eq_true] at hg
    exact absurd (h.trans (fieldChars_cons m u gs s)) (close_ne_name hg.1.1)
  | (n, t) :: fs, [], hf, _, r, s, h => by
    simp only [areLegible, Bool.and_eq_true] at hf
    exact absurd (h.symm.trans (fieldChars_cons n t fs r)) (close_ne_name hf.1.1)
  | (n, t) :: fs, (m, u) :: gs, hf, hg, r, s, h => by
    simp only [areLegible, Bool.and_eq_true] at hf hg
    rw [fieldChars_cons, fieldChars_cons] at h
    -- no colon is in a name, so the first one ends it
    have hf' : ':' ∉ n.toList := not_mem_of_all hf.1.1 (by decide)
    have hg' : ':' ∉ m.toList := not_mem_of_all hg.1.1 (by decide)
    obtain ⟨hn, htext⟩ := append_cons_inj hf' hg' h
    obtain rfl := String.toList_inj.mp hn
    obtain ⟨rfl, hrest⟩ := text_append_inj hf.1.2 hg.1.2 htext
    cases fs with
    | nil =>
      cases gs with
      | nil => exact ⟨rfl, (List.cons.inj hrest).2⟩
      | cons => simp at hrest
    | cons f fs =>
      cases gs with
      | nil => simp at hrest
      | cons g gs =>
        obtain ⟨hfs, rfl⟩ := fieldChars_inj hf.2 hg.2 (List.cons.inj hrest).2
        exact ⟨by rw [hfs], rfl⟩

end

/-- Types are the same if their names are. -/
theorem same_iff_text {a b : Ty} (ha : a.isLegible = true) (hb : b.isLegible = true) :
    a.same b = true ↔ a.text = b.text := by
  constructor
  · intro h
    rw [eq_of_same h]
  · intro h
    obtain ⟨rfl, -⟩ := text_append_inj ha hb (r := []) (s := []) (by rw [h])
    exact same_refl a

end WhileStack.Machine.Ty
