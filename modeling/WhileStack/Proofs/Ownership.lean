import WhileStack.Proofs.Simulation.Run
import WhileStack.Proofs.Tree.Graph

/-! Local variables own the lists and records they lead to. In every state of a run, over all active frames, each list
or record has one reference to it, and an assignment through one variable is not seen through another. -/
namespace WhileStack
open Machine (State Pending Instr)
open Simulation (Reachable)

/-- The local variables of all active frames, those of the running frame first. -/
def Machine.State.variables (s : State) : List Value :=
  s.frame.locals.toList ++ s.callers.flatMap fun c => c.frame.locals.toList

/-- The next instruction replaces an element or a field of a cell. -/
inductive Machine.State.Writes (s : State) (a : Nat) : Prop where
  | element {ty k v S} : s.frame.instrAt? s.frame.pc = some (.listStore ty) → s.frame.stack = k :: .ref a :: v :: S →
    Writes s a
  | field {name offset v S} : s.frame.instrAt? s.frame.pc = some (.putField name offset) →
    s.frame.stack = .ref a :: v :: S → Writes s a

/-- Values that share nothing with each other or within themselves. -/
structure Heap.Separate (h : Heap) (vs : List Value) : Prop where
  one_place : ∀ v ∈ vs, ∀ a, h.Leads v a → ∃! place, h.Refers vs place a
  acyclic : ∀ v ∈ vs, ∀ a, h.Leads v a → ¬ Relation.TransGen h.Within a a
  disjoint : ∀ (i j : Nat) v w a, i ≠ j → vs[i]? = some v → vs[j]? = some w → h.Leads v a → ¬ h.Leads w a

private theorem Forest.separate {h : Heap} {vs : List Value} {ts : List Tree} {F : List Nat} (f : Forest h vs ts F)
    (hn : F.Nodup) : h.Separate vs where
  one_place _ hv _ hl := f.exists_unique_place hn hv hl
  acyclic _ hv _ hl := f.acyclic hn hv hl
  disjoint _ _ _ _ _ hij hv hw hl := f.disjoint hn hij hv hw hl

section
variable {s : State} {t : OnTrees.State}

private theorem pendingRoots_variables {h : Heap} {ps : List Pending} {qs : List OnTrees.Pending}
    (m : List.Forall₂ (OnTrees.PendingMatches h) ps qs) :
    ∃ rs : Roots, rs.map Prod.fst = ps.flatMap (fun c => c.frame.locals.toList) ∧
      rs.Sublist (OnTrees.pendingRoots ps qs) := by
  induction m with
  | nil => exact ⟨[], rfl, .slnil⟩
  | @cons p q ps qs hp _ ih =>
    obtain ⟨rs, hrs, hsub⟩ := ih
    refine ⟨p.frame.locals.toList.zip q.frame.locals ++ rs, ?_, (List.sublist_append_right _ _).append hsub⟩
    simp [hrs, List.map_fst_zip (Nat.le_of_eq hp.holds.length_eq)]

/-- Variables that have trees read as them without meeting a cell twice. -/
private theorem variables_forest (a : OnTrees.Agrees s t) :
    ∃ ts F, Forest s.store.heap s.variables ts F ∧ F.Nodup := by
  obtain ⟨rs, hrs, hsub⟩ := pendingRoots_variables a.callers
  obtain ⟨F, f, hn, -⟩ := a.holding.owned.subperm ((List.sublist_append_right _ _).append hsub).subperm
  rw [List.map_append, hrs, List.map_fst_zip (Nat.le_of_eq a.holding.holds.length_eq)] at f
  exact ⟨_, F, f, hn⟩

end

section
variable {p : Machine.Program} {s s' : State} {f g : Machine.Frame} {st st' : Store} {a : Nat}

private theorem element_ref {k : Value} {r : Nat × List Value × Nat}
    (h : Machine.element f (.ref a) k st = .ok r st') : r.1 = a ∧ st' = st := by
  simp only [Machine.element, Exec.bind_apply, Exec.get_apply, Heap.list?] at h
  cases hc : st.heap.cell? a with
  | none => simp [hc, Machine.fail] at h
  | some c =>
    cases c with
    | record fs => simp [hc, Machine.fail] at h
    | list es =>
      cases hk : Machine.intOf? k with
      | none => simp [hc, hk, Machine.fail] at h
      | some i =>
        cases he : elementAt f.method.name es.length i with
        | error e => simp [hc, hk, he, Machine.liftFault] at h
        | ok n =>
          simp only [hc, hk, he, Machine.liftFault, Exec.bind_apply, Exec.pure_apply, EStateM.Result.ok.injEq] at h
          obtain ⟨rfl, rfl⟩ := h
          exact ⟨rfl, rfl⟩

private theorem fieldAt_ref {name : String} {offset : Int} {r : Nat × List (String × Value) × Nat}
    (h : Machine.fieldAt f (.ref a) name offset st = .ok r st') : r.1 = a ∧ st' = st := by
  simp only [Machine.fieldAt, Exec.bind_apply, Exec.get_apply, Heap.record?] at h
  cases hc : st.heap.cell? a with
  | none => simp [hc, Machine.fail] at h
  | some c =>
    cases c with
    | list es => simp [hc, Machine.fail] at h
    | record fs =>
      simp only [hc] at h
      split at h
      · simp only [Exec.pure_apply, EStateM.Result.ok.injEq] at h
        obtain ⟨rfl, rfl⟩ := h
        exact ⟨rfl, rfl⟩
      · simp [Machine.fail] at h

private theorem perform_listStore {ty : Machine.Ty} {k v : Value}
    (h : Machine.perform f (.listStore ty) [v, .ref a, k] st = .ok g st') :
    g = f ∧ ∃ c, st'.heap = st.heap.write a c := by
  rw [Machine.perform] at h
  obtain ⟨r, st₁, hr, hrest⟩ := Exec.bind_eq_ok.mp h
  obtain ⟨rfl, rfl⟩ := element_ref hr
  cases hrest
  exact ⟨rfl, _, rfl⟩

private theorem perform_putField {name : String} {offset : Int} {v : Value}
    (h : Machine.perform f (.putField name offset) [v, .ref a] st = .ok g st') :
    g = f ∧ ∃ c, st'.heap = st.heap.write a c := by
  rw [Machine.perform] at h
  obtain ⟨r, st₁, hr, hrest⟩ := Exec.bind_eq_ok.mp h
  obtain ⟨rfl, rfl⟩ := fieldAt_ref hr
  cases hrest
  exact ⟨rfl, _, rfl⟩

/-- What an assignment to an element or a field changes. -/
private theorem step_writes (hw : s.Writes a) (h : Machine.step p s = .running s') :
    s'.variables = s.variables ∧ ∃ c, s'.store.heap = s.store.heap.write a c := by
  obtain ⟨st, n, f, cs⟩ := s
  cases hw with
  | @element ty k v S hi hstack =>
    dsimp only at hi hstack
    obtain ⟨g, st', hp, rfl⟩ := Machine.perform_of_step hi (by simp [hstack, Instr.pops]) rfl h
    rw [hstack] at hp
    obtain ⟨rfl, hheap⟩ := perform_listStore hp
    exact ⟨rfl, hheap⟩
  | @field name offset v S hi hstack =>
    dsimp only at hi hstack
    obtain ⟨g, st', hp, rfl⟩ := Machine.perform_of_step hi (by simp [hstack, Instr.pops]) rfl h
    rw [hstack] at hp
    obtain ⟨rfl, hheap⟩ := perform_putField hp
    exact ⟨rfl, hheap⟩

end

/-- The variables of a running program own what they lead to. An element or field that is assigned through one of them
leaves what all the others read as. -/
theorem variables_own_structures {o : Lower.Options} {program : Source.Program} {p : Machine.Program}
    {argv : List String} {s : State} (hc : Lower.compile o program = .ok p) (h : Reachable p argv s) :
    s.store.heap.Separate s.variables ∧
      ∀ a (i : Nat) v s', s.Writes a → s.variables[i]? = some v → s.store.heap.Leads v a → Machine.step p s = .running s' →
        s'.variables = s.variables ∧ ∀ (j : Nat) w, i ≠ j → s.variables[j]? = some w →
          ∃ t, s.store.heap.Reads w t ∧ s'.store.heap.Reads w t := by
  obtain ⟨t, ag, -⟩ := h.agrees hc 0
  obtain ⟨ts, F, f, hn⟩ := variables_forest ag
  refine ⟨f.separate hn, fun a i v s' hw hv hl hs => ?_⟩
  obtain ⟨hvars, c, hheap⟩ := step_writes hw hs
  refine ⟨hvars, fun j w hij hj => ?_⟩
  rw [hheap]
  exact f.reads_write hn hij hv hj hl c

/-- Assigns an element of a list of which another variable holds a copy. -/
private def copied : Source.Program :=
  let ints : Source.Attr := ⟨.list .int, .unknown⟩
  let number (n : Int) : Source.Expr := .const ⟨.int, .unknown⟩ (.int n)
  ⟨[.fn ⟨.unknown, "main", [], .void,
    [.decl ⟨.unknown, .list .int, "xs", some (.list ints [number 1])⟩,
     .decl ⟨.unknown, .list .int, "ys", some (.var ints "xs")⟩,
     .assign .unknown (.index ⟨.int, .unknown⟩ (.var ints "xs") (number 0)) (number 2)], true⟩]⟩

/-- At the assignment the two lists are apart, and the copy reads the same behind it. -/
theorem copied_own : ∃ p s s', Lower.compile (.standard "Q") copied = .ok p ∧ Reachable p [] s ∧ s.Writes 0 ∧
    Machine.step p s = .running s' ∧ s.store.heap.Separate s.variables ∧
    ∃ t, s.store.heap.Reads (.ref 1) t ∧ s'.store.heap.Reads (.ref 1) t := by
  have h : ∃ p s s', Lower.compile (.standard "Q") copied = .ok p ∧ Reachable p [] s ∧ s.Writes 0 ∧
      Machine.step p s = .running s' ∧ s.variables[1]? = some (.ref 0) ∧ s.variables[2]? = some (.ref 1) :=
    ⟨_, _, _, rfl, .step (.step (.step (.step (.step (.step (.step (.step (.step (.start rfl) rfl) rfl) rfl) rfl) rfl)
      rfl) rfl) rfl) rfl, .element rfl rfl, rfl, rfl, rfl⟩
  obtain ⟨p, s, s', hp, hs, hw, hn, h₁, h₂⟩ := h
  obtain ⟨hsep, hrest⟩ := variables_own_structures hp hs
  exact ⟨p, s, s', hp, hs, hw, hn, hsep, (hrest 0 1 _ s' hw h₁ .here hn).2 2 _ (by decide) h₂⟩

end WhileStack
