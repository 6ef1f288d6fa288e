import WhileStack.Machine.Program
import WhileStack.Proofs.Exec
import WhileStack.Proofs.Machine.Depth
import WhileStack.Proofs.Machine.Placement

/-! Code of a class under the name of another one. The name stands where objects are made and where the receiver is
loaded; labels and depths do not depend on it. -/
namespace WhileStack.Machine
variable {a b : String}

/-- An object of the class `a` becomes one of the class `b`. -/
def Ty.reclass (a b : String) (t : Ty) : Ty := if t = .object a then .object b else t

@[simp] theorem Ty.reclass_object : (Ty.object a).reclass a b = .object b := if_pos rfl

@[simp] theorem Ty.reclass_self (t : Ty) : t.reclass a a = t := by
  unfold reclass
  split <;> simp_all

namespace Instr

/-- Slot 0 alone can hold the receiver. -/
def reclass (a b : String) : Instr → Instr
  | new t => new (t.reclass a b)
  | load slot t => load slot (if slot = 0 then t.reclass a b else t)
  | i => i

variable (i : Instr)

@[simp] theorem reclass_self : i.reclass a a = i := by cases i <;> simp [reclass]

theorem reclass_load {slot : Nat} {t : Ty} (h : 0 < slot) : (load slot t).reclass a b = load slot t := by
  simp only [reclass, if_neg (Int.natCast_ne_zero.mpr (Nat.ne_of_gt h))]

@[simp] theorem reclass_pops : (i.reclass a b).pops = i.pops := by cases i <;> rfl

@[simp] theorem reclass_dest? : (i.reclass a b).dest? = i.dest? := by cases i <;> rfl

@[simp] theorem reclass_isMark : (i.reclass a b).isMark = i.isMark := by cases i <;> rfl

@[simp] theorem reclass_fallsThrough : (i.reclass a b).fallsThrough = i.fallsThrough := by cases i <;> rfl

theorem reclass_setDest (d : Dest) : (i.setDest d).reclass a b = (i.reclass a b).setDest d := by cases i <;> rfl

theorem reclass_after (d : Int) : (i.reclass a b).after d = i.after d := by cases i <;> rfl

theorem reclass_blocked (d : Int) : blocked (i.reclass a b) d = blocked i d := by cases i <;> rfl

end Instr

def Local.reclass (a b : String) (l : Local) : Local := if l.slot = 0 then { l with ty := l.ty.reclass a b } else l

@[simp] theorem Local.reclass_self (l : Local) : l.reclass a a = l := by simp [reclass]

/-- The method with the name of its class changed. -/
def Method.reclass (a b : String) (m : Method) : Method :=
  { m with code := m.code.map (Instr.reclass a b), locals := m.locals.map (Local.reclass a b) }

@[simp] theorem Method.reclass_self (m : Method) : m.reclass a a = m := by
  have hcode : Instr.reclass a a = id := funext Instr.reclass_self
  have hlocals : Local.reclass a a = id := funext Local.reclass_self
  simp [reclass, hcode, hlocals]

theorem Method.map_reclass_self (ms : List Method) : ms.map (Method.reclass a a) = ms :=
  (List.map_congr_left fun m _ => m.reclass_self).trans (List.map_id' ms)

section
variable {code full : Code}

private theorem places_reclass (code : Code) (n : Nat) (found : List (Label × Nat)) :
    places n found (code.map (Instr.reclass a b)) = places n found code := by
  induction code generalizing n found with
  | nil => rfl
  | cons i code ih =>
    cases i with
    | mark l => simp only [List.map_cons, Instr.reclass, places, ih]
    | _ => exact ih (n + 1) found

private theorem branchLabels_reclass (code : Code) : branchLabels (code.map (Instr.reclass a b)) = branchLabels code := by
  simp only [branchLabels, List.filterMap_map, Function.comp_def, Instr.reclass_dest?]

private theorem relocate_reclass {found : List (Label × Nat)} {size : Nat} {i j : Instr}
    (h : relocate found size i = .ok j) : relocate found size (i.reclass a b) = .ok (j.reclass a b) := by
  unfold relocate at h ⊢
  rw [Instr.reclass_dest?]
  split at h
  · cases h
    rfl
  · split at h
    · cases h
    · split at h
      · cases h
        simp_all [Instr.reclass_setDest]
      · cases h

/-- Labels are resolved alike. -/
theorem resolve_reclass (h : resolve code = .ok full) :
    resolve (code.map (Instr.reclass a b)) = .ok (full.map (Instr.reclass a b)) := by
  have hreal : (code.map (Instr.reclass a b)).filter (fun i => !i.isMark) =
      (code.filter fun i => !i.isMark).map (Instr.reclass a b) := by
    simp only [List.filter_map, Function.comp_def, Instr.reclass_isMark]
  unfold resolve at h ⊢
  obtain ⟨⟨found, size⟩, hp, h⟩ := Partial.then_eq_ok.mp h
  rw [places_reclass, hp, Partial.ok_then, branchLabels_reclass, hreal]
  dsimp only at h ⊢
  split at h
  · cases h
  · refine mapM_eq_ok.mpr (List.forall₂_map_left_iff.mpr (List.forall₂_map_right_iff.mpr ?_))
    exact (mapM_eq_ok.mp h).imp fun _ _ => relocate_reclass

end

section
variable {code : Array Instr} {n : Nat} {s s₁ s' : DepthState} {i : Instr} {d : Int}

private theorem wrap_reclass (k : Int) : wrap (code.map (Instr.reclass a b)) k = wrap code k := by
  rw [wrap, wrap, wordBound, wordBound, Array.size_map]

/-- A visit does the same. -/
private theorem Visited.reclass (v : Visited code n i d s s₁ s') :
    Visited (code.map (Instr.reclass a b)) n (i.reclass a b) d s s₁ s' where
  free := by rw [Instr.reclass_blocked, v.free]
  branch dest hd := by
    rw [Instr.reclass_dest?] at hd
    simpa only [wrap_reclass, Instr.reclass_after, Array.size_map] using v.branch dest hd
  straight hd := by
    rw [Instr.reclass_dest?] at hd
    simpa only [wrap_reclass, Instr.reclass_after] using v.straight hd
  next hf := by
    rw [Instr.reclass_fallsThrough] at hf
    simpa only [wrap_reclass, Instr.reclass_after, Array.size_map] using v.next hf
  stay hf := v.stay (by rwa [Instr.reclass_fallsThrough] at hf)

private theorem visitAll_reclass {rounds : Nat} (hs : s.depth.size = code.size) (h : visitAll code rounds s = .ok s') :
    visitAll (code.map (Instr.reclass a b)) rounds s = .ok s' := by
  induction rounds generalizing s with
  | zero => exact h
  | succ rounds ih =>
    unfold visitAll at h ⊢
    split at h
    · exact h
    · rename_i k work _
      rw [Array.getElem?_map]
      cases hi : code[k]? with
      | none =>
        rw [hi] at h
        exact ih hs h
      | some i =>
        cases hd : s.depth[k]? with
        | none =>
          rw [hi, hd] at h
          exact ih hs h
        | some d =>
          rw [hi, hd] at h
          obtain ⟨s₁, h₁, h⟩ := Partial.then_eq_ok.mp h
          obtain ⟨s₂, v⟩ := (visit_eq_ok (s := { s with work := work }) hs).mp h₁
          have hs' : s.depth.size = (code.map (Instr.reclass a b)).size := by rw [Array.size_map, hs]
          have h₁' := (visit_eq_ok (s := { s with work := work }) hs').mpr ⟨s₂, v.reclass⟩
          exact Partial.then_eq_ok.mpr ⟨s₁, h₁', ih (v.size_eq.trans hs) h⟩

/-- Code needs the same stack. -/
theorem maxDepth_reclass (h : maxDepth code = .ok n) : maxDepth (code.map (Instr.reclass a b)) = .ok n := by
  obtain ⟨s, hs, rfl⟩ := Partial.map_eq_ok.mp h
  refine Partial.map_eq_ok.mpr ⟨s, ?_, rfl⟩
  unfold depths at hs ⊢
  rw [Array.isEmpty, Array.size_map]
  split at hs
  · cases hs
  · rename_i hempty
    rw [Array.isEmpty] at hempty
    have hinitial : DepthState.initial (code.map (Instr.reclass a b)) = .initial code := by
      rw [DepthState.initial, DepthState.initial, Array.size_map]
    rw [if_neg hempty, hinitial, roundBound, Array.size_map]
    exact visitAll_reclass (initial_size code) hs

end

end WhileStack.Machine
