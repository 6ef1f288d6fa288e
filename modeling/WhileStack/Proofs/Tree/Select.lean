import WhileStack.Proofs.Lookup
import WhileStack.Proofs.Tree.Basic

/-! Selecting fields of a record by name. Selecting from a selection is selecting from the record itself, and all fields in
their order are the record. -/
namespace WhileStack.Tree
variable {rs : List (String × Tree)} {ns ms : List String} {ts us : List Tree}

theorem select_eq_ok_iff : select rs ns = .ok us ↔ List.Forall₂ (fun n t => rs.lookup n = some t) ns us := by
  induction ns generalizing us with
  | nil =>
    rw [select, List.forall₂_nil_left_iff, Except.ok.injEq]
    exact eq_comm
  | cons n ns ih =>
    rw [select, List.forall₂_cons_left_iff]
    cases ht : rs.lookup n with
    | none => simp
    | some t =>
      simp only [← ih, Option.some.injEq, exists_and_left, exists_eq_left']
      cases select rs ns with
      | error e => simp [bind, Except.bind]
      | ok ts => simp [bind, Except.bind, eq_comm]

/-- Selecting succeeds where each field has its name and type in a layout of the record, and gives values of these types. -/
theorem select_ok {α : Type} {R : Tree → α → Prop} {gs fs : List (String × α)}
    (h : List.Forall₂ (fun r g => r.1 = g.1 ∧ R r.2 g.2) rs gs) (hs : ∀ f ∈ fs, gs.lookup f.1 = some f.2) :
    ∃ us, select rs (fs.map Prod.fst) = .ok us ∧ List.Forall₂ R us (fs.map Prod.snd) := by
  simp only [select_eq_ok_iff]
  induction fs with
  | nil => exact ⟨[], .nil, .nil⟩
  | cons f fs ih =>
    obtain ⟨us, hus, hall⟩ := ih fun g hg => hs g (List.mem_cons_of_mem f hg)
    have hf := hs f List.mem_cons_self
    rcases lookup_forall₂ h f.1 with ⟨-, hnone⟩ | ⟨t, a, ht, ha, hr⟩
    · cases hf.symm.trans hnone
    · cases hf.symm.trans ha
      exact ⟨t :: us, .cons ht hus, .cons hr hall⟩

private theorem lookup_of_selected (h : List.Forall₂ (fun n t => rs.lookup n = some t) ns us) {n : String} {t : Tree}
    (ht : (ns.zip us).lookup n = some t) : rs.lookup n = some t := by
  induction h with
  | nil => cases ht
  | @cons m u ns us hu _ ih =>
    rw [List.zip_cons_cons, List.lookup_cons] at ht
    by_cases hm : n = m
    · subst hm
      rw [beq_self_eq_true] at ht
      exact hu.trans ht
    · rw [beq_false_of_ne hm] at ht
      exact ih ht

theorem select_select (h : select rs ns = .ok us) (hs : select (ns.zip us) ms = .ok ts) : select rs ms = .ok ts := by
  rw [select_eq_ok_iff] at h hs ⊢
  exact hs.imp fun _ _ => lookup_of_selected h

theorem select_all (hn : ns.Nodup) (hl : ns.length = ts.length) : select (ns.zip ts) ns = .ok ts := by
  have hfst : (ns.zip ts).map Prod.fst = ns := List.map_fst_zip (Nat.le_of_eq hl)
  rw [select_eq_ok_iff, List.forall₂_iff_zip]
  refine ⟨hl, fun hmem => lookup_of_mem ?_ hmem⟩
  rwa [hfst]

/-- A record with no two fields of one name is projected to itself. -/
theorem project_all (hn : ns.Nodup) (hl : ns.length = ts.length) :
    project (ns.zip ts) ns = .ok (node (.record ns) ts) := by
  rw [project, select_all hn hl]
  rfl

end WhileStack.Tree
