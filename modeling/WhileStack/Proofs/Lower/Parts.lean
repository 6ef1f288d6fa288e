import WhileStack.Proofs.Lookup
import WhileStack.Proofs.Lower.Inversion
import WhileStack.Proofs.Source.Occurs

/-! Whatever is lowered has all its parts lowered. -/
namespace WhileStack.Lower
open Source (Expr BinOp UnOp Loc)

/-- Lowering succeeds from some number of used labels on. -/
def Runs {α : Type} (x : Lowering α) : Prop := ∃ n r, x n = .ok r

section
variable {α β : Type} {context : Context} {loc l₁ l₂ : Loc} {want t : Machine.Ty} {x y : Lowering Typed}

theorem Runs.bind {x : Lowering α} {f : α → Lowering β} (h : Runs (x >>= f)) : Runs x ∧ ∃ a, Runs (f a) := by
  obtain ⟨n, ⟨b, n'⟩, h⟩ := h
  obtain ⟨a, n₁, hx, hf⟩ := Partial.bind_eq_ok.mp h
  exact ⟨⟨n, _, hx⟩, a, n₁, _, hf⟩

theorem Runs.needValue (h : Runs (needValue loc x)) : Runs x := h.bind.1

theorem Runs.needTyped (h : Runs (needTyped context want loc x)) : Runs x := h.bind.1.needValue

private theorem Runs.both {f : Machine.Code → Machine.Code → Lowering α}
    (h : Runs (do let l ← Lower.needTyped context want l₁ x; let r ← Lower.needTyped context t l₂ y; f l r)) :
    Runs x ∧ Runs y := by
  obtain ⟨hx, l, h⟩ := h.bind
  exact ⟨hx.needTyped, h.bind.1.needTyped⟩

theorem Runs.binary {op : BinOp} (h : Runs (binaryCode loc op x y l₁ l₂)) : Runs x ∧ Runs y := by
  unfold binaryCode at h
  cases op with
  | and | or =>
    obtain ⟨hx, l, h⟩ := h.bind.1.bind
    obtain ⟨-, skip, h⟩ := h.bind
    obtain ⟨-, done, h⟩ := h.bind
    exact ⟨hx.needTyped, h.bind.1.needTyped⟩
  | eq | ne =>
    obtain ⟨hx, ⟨l, t⟩, h⟩ := h.bind
    exact ⟨hx.needValue, h.bind.1.needTyped⟩
  | append =>
    obtain ⟨hx, ⟨l, t⟩, h⟩ := h.bind
    cases t with
    | string | list => exact ⟨hx.needValue, h.bind.1.needTyped⟩
    | _ => obtain ⟨n, r, h⟩ := h; cases h
  | lt | le | gt | ge | add | sub | mul | div | rem => exact h.both
  | other => obtain ⟨n, r, h⟩ := h; cases h

theorem Runs.unary {op : UnOp} (h : Runs (unaryCode loc op x l₁)) : Runs x := by
  unfold unaryCode at h
  cases op with
  | not | neg => exact h.bind.1.needTyped
  | length => exact h.bind.1.needValue
  | other => obtain ⟨n, r, h⟩ := h; cases h

end

section
variable {v : View} {context : Context} {loc : Loc} {t : Machine.Ty}

theorem Runs.args {ts : List Machine.Ty} {es : List Expr} (hl : ts.length = es.length)
    (h : Runs (argsCode v context ts es)) : ∀ e ∈ es, Runs (exprCode v e) := by
  induction es generalizing ts with
  | nil => nofun
  | cons e es ih =>
    obtain ⟨t, ts, rfl⟩ := List.exists_cons_of_length_eq_add_one hl
    rw [argsCode] at h
    obtain ⟨he, c, h⟩ := h.bind
    exact List.forall_mem_cons.mpr ⟨he.needTyped, ih (by simpa using hl) h.bind.1⟩

/-- The fields that are given are fields of the layout, each given once. -/
theorem Runs.names {seen names : List String} (h : Runs (checkFieldNames t loc seen names)) :
    names.Nodup ∧ ∀ n ∈ names, n ∉ seen ∧ (t.field? n).isSome = true := by
  induction names generalizing seen with
  | nil => exact ⟨List.nodup_nil, nofun⟩
  | cons n names ih =>
    unfold checkFieldNames at h
    split at h
    · obtain ⟨_, _, h⟩ := h
      cases h
    · rename_i hn
      split at h
      · obtain ⟨_, _, h⟩ := h
        cases h
      · rename_i hseen
        obtain ⟨hnodup, hall⟩ := ih h
        refine ⟨List.nodup_cons.mpr ⟨fun hm => (hall n hm).1 (List.mem_cons_self ..), hnodup⟩, ?_⟩
        refine List.forall_mem_cons.mpr ⟨⟨hseen, ?_⟩, fun m hm => ?_⟩
        · simpa [Option.isSome_iff_ne_none] using hn
        · exact ⟨fun h => (hall m hm).1 (List.mem_cons_of_mem _ h), (hall m hm).2⟩

private theorem fieldValues_eq (fields : List (String × Expr)) :
    fieldValues v fields = fields.map fun f => (f.1, f.2.loc, exprCode v f.2) := by
  induction fields with
  | nil => rfl
  | cons f fields ih => rw [fieldValues, ih, List.map_cons]

/-- Each field of the layout is lowered. -/
theorem Runs.fields {given : List (String × Loc × Lowering Typed)} {fs : List (String × Machine.Ty)} {name : String}
    {i : Nat} (h : Runs (fieldsCode given loc fs)) (hf : (Machine.Ty.findField name i fs).isSome = true) :
    ∃ l y, given.lookup name = some (l, y) ∧ Runs y := by
  induction fs generalizing i with
  | nil => cases hf
  | cons f fs ih =>
    obtain ⟨n, t⟩ := f
    rw [fieldsCode] at h
    cases hg : given.lookup n with
    | none =>
      rw [hg] at h
      obtain ⟨_, _, h⟩ := h
      cases h
    | some y =>
      simp only [hg] at h
      obtain ⟨hy, c, h⟩ := h.bind
      rw [Machine.Ty.findField] at hf
      split at hf
      · rename_i hn
        subst hn
        exact ⟨y.1, y.2, hg, hy.needTyped⟩
      · exact ih h.bind.1 hf

end

section
variable {v : View} {e x : Expr}

theorem Runs.indexing {a : Source.Attr} {source : Typed} {position : Lowering Typed} {loc : Loc}
    (h : Runs (indexCode v a source position loc)) : Runs position := by
  obtain ⟨-, elem, h⟩ := h.bind
  exact h.bind.1.needTyped

private theorem Runs.record {fields : List (String × Expr)} {loc : Loc} {fs : List (String × Machine.Ty)}
    (hn : Runs (checkFieldNames (.record fs) loc [] (fields.map Prod.fst)))
    (hf : Runs (fieldsCode (fieldValues v fields) loc fs)) (hx : x ∈ fields.map Prod.snd) : Runs (exprCode v x) := by
  obtain ⟨⟨name, y⟩, hy, rfl⟩ := List.mem_map.mp hx
  obtain ⟨hnodup, hall⟩ := hn.names
  obtain ⟨l, z, hl, hz⟩ := hf.fields (hall name (List.mem_map.mpr ⟨_, hy, rfl⟩)).2
  rw [fieldValues_eq, lookup_map fun e => (e.loc, exprCode v e), lookup_of_mem hnodup hy] at hl
  cases hl
  exact hz

/-- An expression is lowered with all its parts. -/
theorem Runs.child (h : Runs (exprCode v e)) (hx : x ∈ e.children) : Runs (exprCode v x) := by
  cases e with
  | const | var => cases hx
  | binary a op lhs rhs =>
    rw [exprCode] at h
    obtain ⟨hl, hr⟩ := h.bind.1.binary
    rcases List.mem_pair.mp hx with rfl | rfl
    · exact hl
    · exact hr
  | unary a op e =>
    rw [exprCode] at h
    obtain rfl := List.mem_singleton.mp hx
    exact h.bind.1.unary
  | cast a e =>
    rw [exprCode] at h
    obtain rfl := List.mem_singleton.mp hx
    exact h.bind.1.needValue
  | call a f args =>
    rw [exprCode] at h
    obtain ⟨n, ⟨r, n'⟩, h⟩ := h
    obtain ⟨sig, n₁, hsig, h⟩ := Partial.bind_eq_ok.mp h
    obtain ⟨cs, n₂, hcs, -⟩ := Partial.bind_eq_ok.mp h
    have hargs : Runs (argsCode v (.argument f) sig.params args) := ⟨n₁, _, hcs⟩
    exact hargs.args (callee_eq_ok hsig).2.2.1.symm x hx
  | index a source position =>
    rw [exprCode] at h
    obtain ⟨hs, s, h⟩ := h.bind
    rcases List.mem_pair.mp hx with rfl | rfl
    · exact hs.needValue
    · exact h.indexing
  | list a elems =>
    rw [exprCode] at h
    obtain ⟨-, t, h⟩ := h.bind
    cases t with
    | list t => exact h.bind.1.args List.length_replicate x hx
    | _ => obtain ⟨_, _, h⟩ := h; cases h
  | record a fields =>
    rw [exprCode] at h
    obtain ⟨-, t, h⟩ := h.bind
    cases t with
    | record fs =>
      obtain ⟨hn, _, h⟩ := h.bind
      exact hn.record h.bind.1 hx
    | _ => obtain ⟨_, _, h⟩ := h; cases h
  | field a source name =>
    rw [exprCode] at h
    obtain rfl := List.mem_singleton.mp hx
    exact h.bind.1.needValue

/-- As `Runs.child`, for what an assignment writes into. -/
theorem Runs.target_child (h : Runs (targetCode v e)) (hx : x ∈ e.children) :
    Runs (targetCode v x) ∨ Runs (exprCode v x) := by
  cases e with
  | var => cases hx
  | index a source position =>
    rw [targetCode] at h
    obtain ⟨hs, s, h⟩ := h.bind
    rcases List.mem_pair.mp hx with rfl | rfl
    · exact .inl hs
    · exact .inr h.indexing
  | field a source name =>
    rw [targetCode] at h
    obtain rfl := List.mem_singleton.mp hx
    exact .inl h.bind.1
  | const | binary | unary | cast | call | list | record =>
    simp only [targetCode] at h
    exact .inr (h.needValue.child hx)

theorem Runs.contained {root : Expr} (h : Runs (targetCode v root) ∨ Runs (exprCode v root)) (he : root.Contains e) :
    Runs (targetCode v e) ∨ Runs (exprCode v e) := by
  induction he with
  | root => exact h
  | child _ hx ih =>
    rcases ih with ih | ih
    · exact ih.target_child hx
    · exact .inr (ih.child hx)

end

end WhileStack.Lower
