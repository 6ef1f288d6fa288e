import WhileStack.Machine.Step
import WhileStack.Proofs.Lower.Cast
import WhileStack.Proofs.Reference.Expr
import WhileStack.Proofs.Tree.Select

/-! Trees of a machine type. A record has the fields of its layout, in this order; no value is of type void, and nothing
stands for one. -/
namespace WhileStack
open Machine (Ty)

inductive HasTy : Tree → Ty → Prop where
  | void : HasTy .null .void
  | int {n} : HasTy (.leaf (.int n)) .int
  | boolean {b} : HasTy (.leaf (.bool b)) .boolean
  | string {s} : HasTy (.leaf (.string s)) .string
  | list {ts t} : (∀ u ∈ ts, HasTy u t) → HasTy (.node .list ts) (.list t)
  | record {ts fs} : List.Forall₂ HasTy ts (fs.map Prod.snd) → HasTy (.node (.record (fs.map Prod.fst)) ts) (.record fs)

namespace HasTy
variable {t u : Tree} {ty : Ty}

theorem ne_null (h : HasTy t ty) (hv : ty.isVoid = false) : t ≠ .null := by
  rintro rfl
  cases h
  cases hv

theorem isNode_eq (h : HasTy t ty) : t.isNode = ty.isComposite := by cases h <;> rfl

/-- Values of a type that is no reference are numbers or booleans, and are equal where they are equal as integers. -/
theorem equal_eq (ht : HasTy t ty) (hu : HasTy u ty) (hv : ty.isVoid = false) (hr : ty.isReference = false) :
    ∃ v w m n, t = .leaf v ∧ u = .leaf w ∧ Machine.intOf? v = some m ∧ Machine.intOf? w = some n ∧ t.equal u = (m == n) := by
  cases ht with
  | int =>
    cases hu with
    | int => exact ⟨_, _, _, _, rfl, rfl, rfl, rfl, rfl⟩
  | boolean =>
    rename_i b
    cases hu with
    | boolean =>
      rename_i c
      refine ⟨_, _, _, _, rfl, rfl, rfl, rfl, ?_⟩
      cases b <;> cases c <;> rfl
  | _ => simp [Ty.isVoid, Ty.isReference] at hv hr

/-- A field is where its layout has it. -/
theorem findField_ok {ts : List Tree} {fs : List (String × Ty)} (h : List.Forall₂ HasTy ts (fs.map Prod.snd))
    {name : String} {i k : Nat} (hf : Ty.findField name i fs = some (k, ty)) :
    ∃ j t, k = i + j ∧ Reference.findField name i ((fs.map Prod.fst).zip ts) = some (k, t) ∧
      fs[j]? = some (name, ty) ∧ ts[j]? = some t ∧ HasTy t ty := by
  induction fs generalizing ts i with
  | nil => simp [Ty.findField] at hf
  | cons f fs ih =>
    obtain ⟨t, ts, ht, hts, rfl⟩ := List.forall₂_cons_right_iff.mp h
    simp only [Ty.findField] at hf
    split at hf
    · rename_i he
      cases hf
      exact ⟨0, t, rfl, by simp [Reference.findField, he], by simp [← he], rfl, ht⟩
    · rename_i he
      obtain ⟨j, u, rfl, hu, hn, hj, hty⟩ := ih hts hf
      refine ⟨j + 1, u, by omega, ?_, by simpa using hn, by simpa using hj, hty⟩
      simpa [Reference.findField, he] using hu

theorem append_ok (ht : HasTy t ty) (hu : HasTy u ty) (h : ty = .string ∨ ∃ e, ty = .list e) :
    ∃ s, t.append u = .ok s ∧ HasTy s ty := by
  obtain rfl | ⟨e, rfl⟩ := h
  · cases ht
    cases hu
    exact ⟨_, rfl, .string⟩
  · cases ht with
    | list ht =>
      cases hu with
      | list hu => exact ⟨_, rfl, .list fun s hs => (List.mem_append.mp hs).elim (ht s) (hu s)⟩

theorem length_ok (ht : HasTy t ty) (h : ty = .string ∨ ∃ e, ty = .list e) : ∃ n, t.length = .ok n := by
  obtain rfl | ⟨e, rfl⟩ := h <;> cases ht <;> exact ⟨_, rfl⟩

/-- A conversion that may be compiled succeeds on the values of its type. -/
theorem project_ok {gs fs : List (String × Ty)} (h : HasTy t (.record gs)) (hs : Lower.Selects gs fs) :
    ∃ rs u, t.record? = some rs ∧ Tree.project rs (fs.map Prod.fst) = .ok u ∧ HasTy u (.record fs) := by
  cases h with
  | record h =>
    obtain ⟨us, hus, hall⟩ := Tree.select_ok (forall₂_zip_names h) hs
    exact ⟨_, _, rfl, by simp [Tree.project, hus, bind, Except.bind], .record hall⟩

end HasTy

/-- A path from a type into the types of its elements and fields. -/
inductive Leads : Ty → List Nat → Ty → Prop where
  | nil {t} : Leads t [] t
  | elem {t u i path} : Leads t path u → Leads (.list t) (i :: path) u
  | field {fs i f u path} : fs[i]? = some f → Leads f.2 path u → Leads (.record fs) (i :: path) u

theorem Leads.append {t u w : Ty} {path path' : List Nat} (h : Leads t path u) (h' : Leads u path' w) :
    Leads t (path ++ path') w := by
  induction h with
  | nil => exact h'
  | elem _ ih => exact .elem (ih h')
  | field hf _ ih => exact .field hf (ih h')

/-- A value of the right type may be put in the place that a path leads to. -/
theorem HasTy.put {t u : Tree} {ty ty' : Ty} {path : List Nat} (h : HasTy t ty) (hl : Leads ty path ty')
    (hu : HasTy u ty') : HasTy (t.put path u) ty := by
  induction hl generalizing t with
  | nil => exact hu
  | @elem ty w i path hl ih =>
    cases h with
    | list h =>
      simp only [Tree.put]
      refine .list fun s hs => ?_
      obtain ⟨k, hk⟩ := List.getElem?_of_mem hs
      rw [List.getElem?_modify] at hk
      obtain ⟨s', hs', rfl⟩ := Option.map_eq_some_iff.mp hk
      have hty := h s' (List.mem_of_getElem? hs')
      split
      · exact ih hty hu
      · exact hty
  | @field fs i f w path hf hl ih =>
    cases h with
    | record h =>
      rename_i ts
      simp only [Tree.put]
      refine .record ?_
      clear hl
      induction ts generalizing fs i with
      | nil => simpa using h
      | cons t ts iht =>
        cases fs with
        | nil => simp at h
        | cons g fs =>
          obtain ⟨ht, hts⟩ := List.forall₂_cons.mp h
          cases i with
          | zero =>
            obtain rfl : g = f := by simpa using hf
            exact .cons (ih ht hu) hts
          | succ i => exact .cons ht (iht (by simpa using hf) hts)

end WhileStack
