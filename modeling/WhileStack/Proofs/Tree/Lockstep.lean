import WhileStack.Proofs.Machine.Step
import WhileStack.Proofs.Tree.Refinement

/-! Step for step the machine with a heap follows the machine over trees. -/
namespace WhileStack.OnTrees
open Machine (Program Method Instr Signature Const Arith Dest intOf?)
open Operand (own)

/-- An instruction that stays in its frame is carried out on the operands it takes. -/
def Performs (f : Machine.Frame) (i : Instr) (st : Store) (r : EStateM.Result Machine.Stop Store Machine.Frame) : Prop :=
  i.pops ≤ f.stack.length ∧
    Machine.perform { f with stack := f.stack.drop i.pops, pc := f.pc + 1 } i (f.stack.take i.pops).reverse st = r

private theorem slot?_eq {locals : Array Value} {n : Nat} (h : n < locals.size) (m : Method) (stack : List Value)
    (pc : Int) : (⟨m, locals, stack, pc⟩ : Machine.Frame).slot? n = some n := by
  simp [Machine.Frame.slot?, h]

private theorem take_reverse (vs Sv : List Value) {n : Nat} (hn : vs.length = n) :
    ((vs.reverse ++ Sv).take n).reverse = vs ∧ (vs.reverse ++ Sv).drop n = Sv := by
  subst hn
  exact ⟨by rw [List.take_left' (by simp)]; simp, List.drop_left' (by simp)⟩

theorem act {f : Machine.Frame} {i : Instr} {b b' : Body} {st : Store} {rest : Roots}
    (a : Act f.method.name i b b') (m : Matches st f.locals.toList f.stack b rest) :
    ∃ locals stack st', Performs f i st (.ok ⟨f.method, locals, stack, f.pc + 1⟩ st') ∧
      Matches st' locals.toList stack b' rest ∧ ∀ r ∈ rest, ∀ q, st'.heap.follow r.1 q = st.heap.follow r.1 q := by
  obtain ⟨meth, locals, stack, pc⟩ := f
  dsimp only at a m ⊢
  cases a with
  | @ldc c v L S k o hc =>
    cases c with
    | missing => cases hc
    | int | bool | string =>
      cases hc
      exact ⟨locals, _ :: stack, st, ⟨Nat.zero_le _, rfl⟩, m.pushLeaf rfl, fun _ _ _ => rfl⟩
  | @load slot ty t L S k o ht hn =>
    obtain ⟨v, hv, hnull, m'⟩ := m.load ht
    refine ⟨locals, v :: stack, st, ⟨Nat.zero_le _, ?_⟩, m', fun _ _ _ => rfl⟩
    have hs : slot < locals.size := by simpa using (List.getElem?_eq_some_iff.mp hv).1
    have hv' : locals.getD slot .null = v := by simpa [Array.getD_eq_getD_getElem?] using congrArg (·.getD .null) hv
    simp only [Machine.perform, Machine.withSlot, slot?_eq hs, hv', Instr.pops, Machine.Frame.push]
    cases v with
    | null => exact absurd (hnull rfl) hn
    | _ => rfl
  | @store slot ty t L k o hs =>
    obtain ⟨v, vs, F, rfl, m', f⟩ := m.popOwn
    obtain rfl : vs = [] := by simpa using m'.holds.stands.length_eq
    have hl : slot < locals.size := by simpa [← m.holds.length_eq] using hs
    refine ⟨locals.setIfInBounds slot v, [], st, ⟨by simp [Instr.pops], ?_⟩, ?_, fun _ _ _ => rfl⟩
    · simp [Machine.perform, Machine.withSlot, slot?_eq hl, Instr.pops, Machine.Frame.setLocal]
    · simpa using m.store hs
  | @clear slot L k o hs =>
    obtain rfl : stack = [] := by simpa using m.holds.stands.length_eq
    have hl : slot < locals.size := by simpa [← m.holds.length_eq] using hs
    refine ⟨locals.setIfInBounds slot .null, [], st, ⟨by simp [Instr.pops], ?_⟩, ?_, fun _ _ _ => rfl⟩
    · simp [Machine.perform, Machine.withSlot, slot?_eq hl, Instr.pops, Machine.Frame.setLocal]
    · simpa using (m.pushLeaf (v := .null) rfl).store hs
  | @arith op x y r L S k o hr =>
    obtain ⟨vs, rfl, m₁⟩ := m.popLeaf
    obtain ⟨vs, rfl, m₂⟩ := m₁.popLeaf
    refine ⟨locals, .int r :: vs, st, ⟨by simp [Instr.pops], ?_⟩, m₂.pushLeaf rfl, fun _ _ _ => rfl⟩
    simp [Machine.perform, Instr.pops, Machine.needInt, intOf?, arithmetic_apply, hr, Machine.Frame.push]
  | @not b L S k o =>
    obtain ⟨vs, rfl, m₁⟩ := m.popLeaf
    obtain ⟨vs, rfl, m₂⟩ := m₁.popLeaf
    refine ⟨locals, .bool (!b) :: vs, st, ⟨by simp [Instr.pops], ?_⟩, m₂.pushLeaf rfl, fun _ _ _ => rfl⟩
    cases b <;> simp [Machine.perform, Instr.pops, Machine.needInt, intOf?, Machine.Frame.push]
  | @neg n L S k o =>
    obtain ⟨vs, rfl, m₁⟩ := m.popLeaf
    refine ⟨locals, .int (-n) :: vs, st, ⟨by simp [Instr.pops], ?_⟩, m₁.pushLeaf rfl, fun _ _ _ => rfl⟩
    simp [Machine.perform, Instr.pops, Machine.needInt, intOf?, Machine.Frame.push]
  | @new ty L S k o =>
    have e : (st.heap.newObject ty.cls).2.cells = st.heap.cells := rfl
    have hf : ∀ v q, (st.heap.newObject ty.cls).2.follow v q = st.heap.follow v q := fun v q => by
      induction q generalizing v with
      | nil => simp [Heap.follow]
      | cons j q ih => cases v <;> simp [Heap.follow, Heap.cell?, e, ih]
    have m' : Matches { st with heap := (st.heap.newObject ty.cls).2 } locals.toList stack ⟨L, S, k + 1, o⟩ rest := by
      obtain ⟨ho, hk, hh, F, f, hn, hb⟩ := m
      exact ⟨ho, congrArg (· + 1) hk, hh.of_follow fun r _ => hf r.1, F, f.of_cells fun _ _ => rfl, hn, hb⟩
    refine ⟨locals, .object k ty.cls :: stack, _, ⟨by simp [Instr.pops], ?_⟩, m'.pushLeaf rfl, fun r _ => hf r.1⟩
    simp [Machine.perform, Instr.pops, Machine.Frame.push, Heap.newObject, m.objects_eq]
  | @print ty t L S k o =>
    obtain ⟨v, vs, F, rfl, m', f⟩ := m.popOwn
    refine ⟨locals, vs, st.print v, ⟨by simp [Instr.pops], ?_⟩, ?_, fun _ _ _ => rfl⟩
    · simp [Machine.perform, Instr.pops]
    · exact ⟨by simp [Store.print, m'.out_eq, f.format_eq], m'.objects_eq, m'.holds, m'.owned⟩
  | @pop ty t L S k o =>
    obtain ⟨v, vs, F, rfl, m', f⟩ := m.popOwn
    refine ⟨locals, vs, st, ⟨by simp [Instr.pops], ?_⟩, m', fun _ _ _ => rfl⟩
    simp [Machine.perform, Instr.pops]
  | @toText source t L S k o =>
    obtain ⟨v, vs, F, rfl, m', f⟩ := m.popOwn
    refine ⟨locals, .string t.format :: vs, st, ⟨by simp [Instr.pops], ?_⟩, m'.pushLeaf rfl, fun _ _ _ => rfl⟩
    simp [Machine.perform, Machine.convert, Instr.pops, Machine.Frame.push, f.format_eq]
  | @project source fields t fs u L S k o hf hu =>
    obtain ⟨v, vs, F, rfl, m', f⟩ := m.popOwn
    rcases f.record?_cases with ⟨-, ht⟩ | ⟨a, gs, ts, G, hv, rfl, rfl, rfl, -, fg⟩
    · simp [ht] at hf
    · obtain rfl : (gs.map Prod.fst).zip ts = fs := by simpa using hf
      rcases fg.project (fields.map Prod.fst) with ⟨e, -, hp⟩ | ⟨w, h', u', hp, hp', he, hfr⟩
      · simp [hp] at hu
      · obtain rfl : u' = u := by simpa [hp'] using hu
        obtain ⟨m₂, hq⟩ := m'.pushNew he hfr
        refine ⟨locals, w :: vs, _, ⟨by simp [Instr.pops], ?_⟩, m₂, hq⟩
        simp [Machine.perform, Machine.convert, Instr.pops, Machine.Frame.push, hv, Machine.onHeap, hp]
  | @equals t u L S k o =>
    obtain ⟨w, vs, G, rfl, m₁, g⟩ := m.popOwn
    obtain ⟨v, vs, F, rfl, m₂, f⟩ := m₁.popOwn
    refine ⟨locals, .bool (t.equal u) :: vs, st, ⟨by simp [Instr.pops], ?_⟩, m₂.pushLeaf rfl, fun _ _ _ => rfl⟩
    simp [Machine.perform, Instr.pops, Machine.Frame.push, f.equal_eq g]
  | @append ty t u s L S k o hs =>
    obtain ⟨w, vs, G, rfl, m₁, g⟩ := m.popOwn
    obtain ⟨v, vs, F, rfl, m₂, f⟩ := m₁.popOwn
    rcases f.append_eq g with ⟨e, -, ht⟩ | ⟨x, h', s', hx, hs', he, hfr⟩
    · simp [ht] at hs
    · obtain rfl : s' = s := by simpa [hs'] using hs
      obtain ⟨m₃, hq⟩ := m₂.pushNew he hfr
      refine ⟨locals, x :: vs, _, ⟨by simp [Instr.pops], ?_⟩, m₃, hq⟩
      simp [Machine.perform, Instr.pops, Machine.Frame.push, Machine.onHeap, hx]
  | @length t n L S k o hl =>
    obtain ⟨v, vs, F, rfl, m', f⟩ := m.popOwn
    refine ⟨locals, .int n :: vs, st, ⟨by simp [Instr.pops], ?_⟩, m'.pushLeaf rfl, fun _ _ _ => rfl⟩
    simp [Machine.perform, Instr.pops, Machine.Frame.push, f.length_eq_length, hl]
  | @clone ty x t L S k o hx =>
    obtain ⟨v, vs, F, rfl, f, -, -⟩ := m.read hx
    obtain ⟨w, h', hw, he, hfr⟩ := f.clone
    obtain ⟨m', hq⟩ := m.popTop.pushNew he hfr
    refine ⟨locals, w :: vs, _, ⟨by simp [Instr.pops], ?_⟩, m', hq⟩
    simp [Machine.perform, Instr.pops, Machine.Frame.push, Machine.onHeap, hw]
  | @newList ty count ts L S k o hc =>
    obtain ⟨vs, Sv, rfl, hl, m'⟩ := m.take
    obtain ⟨h₁, h₂⟩ := take_reverse vs Sv hl
    obtain ⟨m'', hq⟩ := m'.gather hl (c := .list vs) rfl
    subst hc
    refine ⟨locals, (st.heap.alloc (.list vs)).1 :: Sv, _, ⟨by simp [Instr.pops, hl], ?_⟩, m'', hq⟩
    have hcount : ¬ (ts.length : Int) < 0 := by omega
    simp only [Instr.pops, Int.toNat_natCast, h₁, h₂]
    simp [Machine.perform, hcount, Machine.Frame.push, Machine.onHeap]
  | @newRecord fs ts L S k o hc =>
    obtain ⟨vs, Sv, rfl, hl, m'⟩ := m.take
    obtain ⟨h₁, h₂⟩ := take_reverse vs Sv (hl.trans hc)
    have hl' : (fs.map Prod.fst).length = vs.length := by simp [hl, hc]
    obtain ⟨m'', hq⟩ := m'.gather hl (c := .record ((fs.map Prod.fst).zip vs))
      (by simp only [Cell.children, List.map_snd_zip (Nat.le_of_eq hl'.symm)])
    rw [Cell.shape, List.map_fst_zip (Nat.le_of_eq hl')] at m''
    refine ⟨locals, (st.heap.alloc (.record ((fs.map Prod.fst).zip vs))).1 :: Sv, _,
      ⟨by simp [Instr.pops, Machine.Ty.fields, hl, hc], ?_⟩, m'', hq⟩
    simp only [Instr.pops, Machine.Ty.fields, h₁, h₂]
    simp [Machine.perform, Machine.Ty.fields, Machine.Frame.push, Machine.onHeap]
  | @listLoad ty x ts i n t L S k o hx hi ht =>
    obtain ⟨vs, rfl, m₁⟩ := m.popLeaf
    obtain ⟨w, vs, F, rfl, -⟩ := m₁.read hx
    obtain ⟨a, c, v, rfl, e, hsh, hl, hv, m₂⟩ := m₁.child hx ht
    cases c with
    | record => simp [Cell.shape] at hsh
    | list es =>
      simp only [Cell.children] at hl hv
      refine ⟨locals, v :: vs, st, ⟨by simp [Instr.pops], ?_⟩, m₂, fun _ _ _ => rfl⟩
      simp [Machine.perform, Instr.pops, Machine.element, Heap.list?, e, intOf?, hl, hi, Machine.liftFault, hv,
        Machine.Frame.push]
  | @listStore ty x ts i n t L k o hx hi =>
    obtain ⟨vs, rfl, m₁⟩ := m.popLeaf
    obtain ⟨w, vs, F, rfl, -⟩ := m₁.read hx
    obtain ⟨v, rfl⟩ : ∃ v, vs = [v] := List.length_eq_one_iff.mp (by simpa using m₁.holds.stands.length_eq)
    obtain ⟨a, c, rfl, e, hsh, hl, hput⟩ := m₁.write hx
    cases c with
    | record => simp [Cell.shape] at hsh
    | list es =>
      simp only [Cell.children] at hl hput
      obtain ⟨m₂, hq⟩ := hput n (.list (es.set n v)) (elementAt_lt hi) rfl rfl
      refine ⟨locals, [], _, ⟨by simp [Instr.pops], ?_⟩, m₂, hq⟩
      simp [Machine.perform, Instr.pops, Machine.element, Heap.list?, e, intOf?, hl, hi, Machine.liftFault,
        Heap.setElem]
  | @getField name n x ns ts t L S k o hx hname ht =>
    obtain ⟨w, vs, F, rfl, -⟩ := m.read hx
    obtain ⟨a, c, v, rfl, e, hsh, hl, hv, m₂⟩ := m.child hx ht
    cases c with
    | list => simp [Cell.shape] at hsh
    | record fs =>
      simp only [Cell.shape, Shape.record.injEq] at hsh
      subst hsh
      simp only [Cell.children, List.getElem?_map] at hv hname
      refine ⟨locals, v :: vs, st, ⟨by simp [Instr.pops], ?_⟩, m₂, fun _ _ _ => rfl⟩
      simp [Machine.perform, Instr.pops, Machine.fieldAt, Heap.record?, e, hname, hv, Machine.Frame.push]
  | @putField name n x ns ts t L k o hx hname =>
    obtain ⟨w, vs, F, rfl, -⟩ := m.read hx
    obtain ⟨v, rfl⟩ : ∃ v, vs = [v] := List.length_eq_one_iff.mp (by simpa using m.holds.stands.length_eq)
    obtain ⟨a, c, rfl, e, hsh, hl, hput⟩ := m.write hx
    cases c with
    | list => simp [Cell.shape] at hsh
    | record fs =>
      simp only [Cell.shape, Shape.record.injEq] at hsh
      subst hsh
      have hn : n < fs.length := by simpa using (List.getElem?_eq_some_iff.mp hname).1
      obtain ⟨m₂, hq⟩ := hput n (.record (fs.modify n fun f => (f.1, v))) (by simpa [Cell.children, ← hl] using hn)
        (by simp only [Cell.shape, Cell.map_fst_modify]) (Cell.map_snd_modify fs n v)
      simp only [List.getElem?_map] at hname
      refine ⟨locals, [], _, ⟨by simp [Instr.pops], ?_⟩, m₂, hq⟩
      simp [Machine.perform, Instr.pops, Machine.fieldAt, Heap.record?, e, hname, Heap.setFieldAt]

theorem jump {f : Machine.Frame} {i : Instr} {d : Option Dest} {b : Body} {S : List Operand} {st : Store} {rest : Roots}
    (j : Jump i b.stack d S) (m : Matches st f.locals.toList f.stack b rest) :
    ∃ stack, Performs f i st (.ok ⟨f.method, f.locals, stack, (d.map Dest.target).getD (f.pc + 1)⟩ st) ∧
      Matches st f.locals.toList stack { b with stack := S } rest := by
  obtain ⟨meth, locals, stack, pc⟩ := f
  obtain ⟨L, S₀, k, o⟩ := b
  dsimp only at j m ⊢
  cases j with
  | goto =>
    refine ⟨stack, ⟨Nat.zero_le _, ?_⟩, m⟩
    simp [Machine.perform, Instr.pops, Machine.Frame.jump]
  | @ifeq d v n S hv =>
    obtain ⟨vs, rfl, m'⟩ := m.popLeaf
    refine ⟨vs, ⟨by simp [Instr.pops], ?_⟩, m'⟩
    by_cases hn : n = 0 <;> simp [Machine.perform, Instr.pops, Machine.needInt, hv, hn, Machine.Frame.jump]
  | @ifne d v n S hv =>
    obtain ⟨vs, rfl, m'⟩ := m.popLeaf
    refine ⟨vs, ⟨by simp [Instr.pops], ?_⟩, m'⟩
    by_cases hn : n = 0 <;> simp [Machine.perform, Instr.pops, Machine.needInt, hv, hn, Machine.Frame.jump]
  | @ifcmp c d v w x y S hv hw =>
    obtain ⟨vs, rfl, m₁⟩ := m.popLeaf
    obtain ⟨vs, rfl, m₂⟩ := m₁.popLeaf
    refine ⟨vs, ⟨by simp [Instr.pops], ?_⟩, m₂⟩
    cases hc : c.holds x y <;>
      simp [Machine.perform, Instr.pops, Machine.needInt, hv, hw, hc, Machine.Frame.jump]

theorem fails {f : Machine.Frame} {i : Instr} {b : Body} {e : Fault} {st : Store} {rest : Roots}
    (a : Fails f.method.name i b e) (hi : i ≠ .unreachable) (m : Matches st f.locals.toList f.stack b rest) :
    Performs f i st (.error (.fault e) st) := by
  obtain ⟨meth, locals, stack, pc⟩ := f
  dsimp only at a m ⊢
  cases a with
  | @unset slot ty L S k o ht =>
    obtain ⟨v, hv, -, m'⟩ := m.load ht
    obtain ⟨vs, hs, -⟩ := Matches.popLeaf (u := .null) m'
    obtain ⟨rfl, rfl⟩ := List.cons.inj hs
    have hs : slot < locals.size := by simpa using (List.getElem?_eq_some_iff.mp hv).1
    have hv' : locals.getD slot .null = .null := by
      simpa [Array.getD_eq_getD_getElem?] using congrArg (·.getD .null) hv
    refine ⟨Nat.zero_le _, ?_⟩
    simp only [Machine.perform, Machine.withSlot, slot?_eq hs, hv', Instr.pops]
    simp [Machine.Frame.fault]
  | @arith op x y e L S k o he =>
    obtain ⟨vs, rfl, m₁⟩ := m.popLeaf
    obtain ⟨vs, rfl, m₂⟩ := m₁.popLeaf
    refine ⟨by simp [Instr.pops], ?_⟩
    simp [Machine.perform, Instr.pops, Machine.needInt, intOf?, arithmetic_apply, he]
  | @listLoad ty x ts i e L S k o hx he =>
    obtain ⟨vs, rfl, m₁⟩ := m.popLeaf
    obtain ⟨w, vs, F, rfl, f, -⟩ := m₁.read hx
    rcases f.list?_cases with ⟨-, ht⟩ | ⟨a, es, ts', G, hv, ht, -, -, -, fe⟩
    · simp at ht
    · obtain rfl : ts = ts' := by simpa using ht
      refine ⟨by simp [Instr.pops], ?_⟩
      simp [Machine.perform, Instr.pops, Machine.element, hv, intOf?, fe.length_eq, he, Machine.liftFault]
  | @listStore ty x ts i t e L k o hx he =>
    obtain ⟨vs, rfl, m₁⟩ := m.popLeaf
    obtain ⟨w, vs, F, rfl, f, -⟩ := m₁.read hx
    obtain ⟨v, rfl⟩ : ∃ v, vs = [v] := List.length_eq_one_iff.mp (by simpa using m₁.holds.stands.length_eq)
    rcases f.list?_cases with ⟨-, ht⟩ | ⟨a, es, ts', G, hv, ht, -, -, -, fe⟩
    · simp at ht
    · obtain rfl : ts = ts' := by simpa using ht
      refine ⟨by simp [Instr.pops], ?_⟩
      simp [Machine.perform, Instr.pops, Machine.element, hv, intOf?, fe.length_eq, he, Machine.liftFault]
  | unreachable => exact absurd rfl hi

/-- What waits for a call to come back. -/
structure PendingMatches (h : Heap) (p : Machine.Pending) (q : Pending) : Prop where
  sig_eq : p.sig = q.sig
  method_eq : p.frame.method = q.frame.method
  pc_eq : p.frame.pc = q.frame.pc
  holds : Holds h p.frame.locals.toList p.frame.stack q.frame.locals q.frame.stack

def pendingRoots : List Machine.Pending → List Pending → Roots
  | p :: ps, q :: qs =>
    frameRoots p.frame.locals.toList p.frame.stack q.frame.locals q.frame.stack ++ pendingRoots ps qs
  | _, _ => []

/-- A state of the machine with a heap, and what it is without one. -/
structure Agrees (s : Machine.State) (t : State) : Prop where
  method_eq : s.frame.method = t.frame.method
  pc_eq : s.frame.pc = t.frame.pc
  holding : Matches s.store s.frame.locals.toList s.frame.stack ⟨t.frame.locals, t.frame.stack, t.objects, t.out⟩
    (pendingRoots s.callers t.callers)
  callers : List.Forall₂ (PendingMatches s.store.heap) s.callers t.callers

/-- The machine with a heap does the same next. -/
def Follows (p : Program) (s : Machine.State) : Next → Prop
  | .running t => ∃ s', Machine.step p s = .running s' ∧ s'.steps = s.steps + 1 ∧ Agrees s' t
  | .finished o => ∃ st, Machine.step p s = .finished st (s.steps + 1) ∧ st.out = o
  | .fault o e => ∃ st, Machine.step p s = .stopped st (s.steps + 1) (.fault e) ∧ st.out = o

theorem pending_of_follow {h h' : Heap} {ps : List Machine.Pending} {qs : List Pending}
    (m : List.Forall₂ (PendingMatches h) ps qs)
    (e : ∀ r ∈ pendingRoots ps qs, ∀ q, h'.follow r.1 q = h.follow r.1 q) :
    List.Forall₂ (PendingMatches h') ps qs := by
  induction m with
  | nil => exact .nil
  | cons hp _ ih =>
    refine .cons ⟨hp.sig_eq, hp.method_eq, hp.pc_eq, hp.holds.of_follow fun r hr => e r ?_⟩ (ih fun r hr => e r ?_)
    · simp [pendingRoots, frameRoots, hr]
    · simp [pendingRoots, hr]

private theorem step_of_performs {p : Program} {st : Store} {n : Nat} {f : Machine.Frame} {c : List Machine.Pending}
    {i : Instr} {r} (hi : f.instrAt? f.pc = some i) (hs : i.stays = true) (h : Performs f i st r) :
    Machine.step p ⟨st, n, f, c⟩ = match r with
      | .ok g st' => .running ⟨st', n + 1, g, c⟩
      | .error e st' => .stopped st' (n + 1) e := by
  obtain ⟨hl, hr⟩ := h
  have hstep : Machine.step p ⟨st, n, f, c⟩ = _ := Machine.step_performs hi hl hs
  rw [Machine.Frame.past, hr] at hstep
  cases r <;> exact hstep

private theorem stays_of_act {function : String} {i : Instr} {b b' : Body} (a : Act function i b b') : i.stays = true := by
  cases a <;> rfl

private theorem stays_of_jump {i : Instr} {S S' : List Operand} {d : Option Dest} (j : Jump i S d S') :
    i.stays = true := by
  cases j <;> rfl

private theorem stays_of_fails {function : String} {i : Instr} {b : Body} {e : Fault} (a : Fails function i b e)
    (hi : i ≠ .unreachable) : i.stays = true := by
  cases a <;> first | rfl | exact absurd rfl hi

private theorem instrAt?_eq {s : Machine.State} {t : State} (a : Agrees s t) {i : Instr} (h : t.frame.instr? = some i) :
    s.frame.instrAt? s.frame.pc = some i := by
  rw [Machine.Frame.instrAt?, a.pc_eq, a.method_eq]
  exact h

/-- The frame on top of the callers goes on. -/
private theorem resume {st : Store} {ps : List Machine.Pending} {cs : List Pending} {p : Machine.Pending} {q : Pending}
    {locals stack : List Value} {L S k o} (m : Matches st locals stack ⟨L, S, k, o⟩ (pendingRoots (p :: ps) (q :: cs)))
    (hp : PendingMatches st.heap p q) :
    Matches st p.frame.locals.toList p.frame.stack ⟨q.frame.locals, q.frame.stack, k, o⟩ (pendingRoots ps cs) :=
  ⟨m.out_eq, m.objects_eq, hp.holds, m.owned.subperm (List.sublist_append_right _ _).subperm⟩

/-- The receiver and the arguments of a call are taken off the stack. -/
private theorem operands {st : Store} {locals stack : List Value} {L S k o id cls} {args : List Tree} {rest : Roots}
    (m : Matches st locals stack ⟨L, ((Tree.leaf (.object id cls) :: args).map own).reverse ++ S, k, o⟩ rest) :
    ∃ (vs Sv : List Value), stack = (.object id cls :: vs).reverse ++ Sv ∧ vs.length = args.length ∧
      Matches st locals Sv ⟨L, S, k, o⟩ ((.object id cls :: vs).zip (.leaf (.object id cls) :: args) ++ rest) := by
  obtain ⟨ws, Sv, rfl, hl, m'⟩ := m.take
  cases ws with
  | nil => simp at hl
  | cons v vs =>
    obtain ⟨F, f, -⟩ := m'.owned.forest (v := v) (t := .leaf (.object id cls)) (by simp)
    cases f
    exact ⟨vs, Sv, rfl, by simpa using hl, m'⟩

/-- A called method holds its arguments and unset variables. -/
theorem activated {st : Store} {locals stack vs : List Value} {ts : List Tree} {L S k o} {rest : Roots}
    (m : Matches st locals stack ⟨L, S, k, o⟩ (vs.zip ts ++ rest)) (hl : vs.length = ts.length) (meth : Method) :
    Matches st (Machine.activate meth vs).locals.toList [] ⟨(activate meth ts).locals, [], k, o⟩
      (frameRoots locals stack L S ++ rest) := by
  refine ⟨m.out_eq, m.objects_eq, ⟨by simp [Machine.activate, activate, hl], .nil⟩, ?_⟩
  refine (m.owned.nulls (meth.maxLocals - vs.length)).perm ?_
  have hz : frameRoots (Machine.activate meth vs).locals.toList [] (activate meth ts).locals [] =
      vs.zip ts ++ List.replicate (meth.maxLocals - vs.length) (.null, .null) := by
    simp [frameRoots, ownRoots, Machine.activate, activate, List.zip_append hl, hl]
  rw [hz]
  generalize List.replicate (meth.maxLocals - vs.length) (Value.null, Tree.null) = ns
  refine List.perm_append_comm.trans ?_
  rw [List.append_assoc, List.append_assoc, List.append_assoc]
  refine (List.perm_append_comm_assoc _ _ _).trans ?_
  refine List.Perm.append_left _ ?_
  rw [← List.append_assoc, ← List.append_assoc]
  exact List.perm_append_comm.trans (List.Perm.append_left _ .rfl) |>.trans (by simp [List.append_assoc])

/-- A call comes to its method with the receiver and the arguments, which have left the stack. -/
private theorem step_call {p : Program} {st : Store} {n : Nat} {f : Machine.Frame} {c : List Machine.Pending}
    {sig : Signature} {meth : Method} {L S k o id cls} {args : List Tree} {rest : Roots}
    (hi : f.instrAt? f.pc = some (.call sig)) (hl : args.length = sig.params.length) (hp : p.method? sig.name = some meth)
    (m : Matches st f.locals.toList f.stack ⟨L, ((Tree.leaf (.object id cls) :: args).map own).reverse ++ S, k, o⟩ rest) :
    ∃ (vs Sv : List Value), vs.length = args.length ∧
      Matches st f.locals.toList Sv ⟨L, S, k, o⟩ ((.object id cls :: vs).zip (.leaf (.object id cls) :: args) ++ rest) ∧
      Machine.step p ⟨st, n, f, c⟩ = match Machine.enter meth (.object id cls :: vs) (c.length + 1) with
        | .ok g => .running ⟨st, n + 1, g, ⟨⟨f.method, f.locals, Sv, f.pc + 1⟩, sig⟩ :: c⟩
        | .error e => .stopped st (n + 1) e := by
  obtain ⟨vs, Sv, hstack, hvl, m'⟩ := operands m
  have hpop : (Instr.call sig).pops = (.object id cls :: vs : List Value).length := by simp [Instr.pops, hvl, hl]
  have hlen : (Instr.call sig).pops ≤ f.stack.length := by
    rw [hstack, hpop]
    simp
  obtain ⟨htaken, hleft⟩ := take_reverse _ Sv hpop.symm
  have hpast : f.past (.call sig) = ⟨f.method, f.locals, Sv, f.pc + 1⟩ := by rw [Machine.Frame.past, hstack, hleft]
  have hinvoke : Machine.invoke p (f.past (.call sig)) sig (f.stack.take (Instr.call sig).pops).reverse (c.length + 1)
      st.heap = Machine.enter meth (.object id cls :: vs) (c.length + 1) := by
    rw [hstack, htaken]
    simp only [Machine.invoke, hp]
  have hstep : Machine.step p ⟨st, n, f, c⟩ = _ := Machine.step_calls hi hlen
  rw [hinvoke, hpast] at hstep
  exact ⟨vs, Sv, hvl, m', hstep⟩

/-- Whatever the machine over trees does, the machine with a heap does. -/
theorem lockstep {p : Program} {s : Machine.State} {t : State} {n : Next} (a : Agrees s t) (h : Step p t n) :
    Follows p s n := by
  obtain ⟨st, steps, f, ps⟩ := s
  have hinstr : ∀ i, t.frame.instr? = some i → f.instrAt? f.pc = some i := fun _ => instrAt?_eq a
  obtain ⟨hm, hpc, m, hc⟩ := a
  dsimp only at hm hpc m hc
  cases h with
  | @act o k g cs i b hi hb =>
    rw [← hm] at hb
    obtain ⟨locals, stack, st', hperf, m', hq⟩ := act hb m
    have hstep := step_of_performs (p := p) (n := steps) (c := ps) (hinstr i hi) (stays_of_act hb) hperf
    exact ⟨_, hstep, rfl, hm, congrArg (· + 1) hpc, m', pending_of_follow hc hq⟩
  | @jump o k g cs i d S hi hj =>
    obtain ⟨stack, hperf, m'⟩ := jump (b := ⟨g.locals, g.stack, k, o⟩) hj m
    have hstep := step_of_performs (p := p) (n := steps) (c := ps) (hinstr i hi) (stays_of_jump hj) hperf
    exact ⟨_, hstep, rfl, hm, congrArg (fun n => (d.map Dest.target).getD (n + 1)) hpc, m', hc⟩
  | @fails o k g cs i e hi he =>
    by_cases hu : i = .unreachable
    · subst hu
      cases he
      refine ⟨st, ?_, m.out_eq⟩
      rw [Machine.step_unreachable (hinstr _ hi), Machine.Frame.fault, Machine.Frame.past_method, hm]
    · rw [← hm] at he
      have hstep := step_of_performs (p := p) (n := steps) (c := ps) (hinstr i hi) (stays_of_fails he hu) (fails he hu m)
      exact ⟨st, hstep, m.out_eq⟩
  | @call o k g cs sig meth id cls args S hi hst hl hmeth hd hmax =>
    rw [hst] at m
    obtain ⟨vs, Sv, hvl, m', hstep⟩ := step_call (p := p) (n := steps) (c := ps) (hinstr _ hi) hl hmeth m
    have hfit : ¬ meth.maxLocals < (.object id cls :: vs : List Value).length := by
      rw [List.length_cons, hvl]
      omega
    rw [Machine.enter, hc.length_eq, if_neg (Nat.not_le.mpr hd), if_neg hfit] at hstep
    exact ⟨_, hstep, rfl, rfl, rfl, activated m' (by simp [hvl]) meth, .cons ⟨rfl, hm, congrArg (· + 1) hpc, m'.holds⟩ hc⟩
  | @tooDeep o k g cs sig meth id cls args S hi hst hl hmeth hd =>
    rw [hst] at m
    obtain ⟨vs, Sv, -, -, hstep⟩ := step_call (p := p) (n := steps) (c := ps) (hinstr _ hi) hl hmeth m
    rw [Machine.enter, hc.length_eq, if_pos hd] at hstep
    exact ⟨st, hstep, m.out_eq⟩
  | @finish o k g ty hi hw =>
    cases hc
    exact ⟨st, Machine.step_returns (hinstr _ hi) (m.holds.stands.length_eq ▸ hw), m.out_eq⟩
  | @giveNothing o k g ty g' sig cs hi hw hv =>
    obtain ⟨⟨f', sig'⟩, ps, hp, hc', rfl⟩ := List.forall₂_cons_right_iff.mp hc
    obtain rfl : sig' = sig := hp.sig_eq
    have hstep : Machine.step p ⟨st, steps, f, ⟨f', sig'⟩ :: ps⟩ = _ :=
      Machine.step_returns (hinstr _ hi) (m.holds.stands.length_eq ▸ hw)
    rw [Machine.giveBack_void hv] at hstep
    exact ⟨_, hstep, rfl, hp.method_eq, hp.pc_eq, resume m hp, hc'⟩
  | @give o k g ty g' sig cs t S hi hty hst ht hv =>
    rw [hst] at m
    obtain ⟨⟨f', sig'⟩, ps, hp, hc', rfl⟩ := List.forall₂_cons_right_iff.mp hc
    obtain rfl : sig' = sig := hp.sig_eq
    obtain ⟨v, vs, F, hstack, m', fv⟩ := m.popOwn
    have hnull : v ≠ .null := by
      rintro rfl
      cases fv
      exact ht rfl
    have hown : Owned 0 st.heap
        ((v, t) :: (frameRoots f'.locals.toList f'.stack g'.locals g'.stack ++ pendingRoots ps cs)) := by
      have := m.owned
      rw [hstack] at this
      exact this.subperm ((List.subperm_cons _).mpr (List.sublist_append_right _ _).subperm)
    have hw : ty.width = 1 := by simp [Machine.Ty.width, hty]
    have hresult : (f.stack.take ty.width).reverse.headD .null = v := by
      rw [hstack, hw]
      rfl
    have hstep : Machine.step p ⟨st, steps, f, ⟨f', sig'⟩ :: ps⟩ = _ :=
      Machine.step_returns (hinstr _ hi) (by simp [hstack, hw])
    rw [hresult, Machine.giveBack_push hv hnull] at hstep
    exact ⟨_, hstep, rfl, hp.method_eq, hp.pc_eq,
      ⟨m.out_eq, m.objects_eq, ⟨hp.holds.length_eq, .cons trivial hp.holds.stands⟩, hown⟩, hc'⟩

end WhileStack.OnTrees
