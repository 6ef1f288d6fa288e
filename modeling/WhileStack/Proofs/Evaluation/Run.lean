import WhileStack.Proofs.Evaluation.Stmt
import WhileStack.Proofs.Lower.Layout

/-! Calls and runs with a heap and over trees. -/
namespace WhileStack
open Source (FunDecl Ty Aliases)

/-- A program without two things that evaluation and compiled code understand differently: no step of a loop declares or
returns, and no function has its result under a name of void. -/
structure Source.Program.Plain (p : Source.Program) : Prop where
  steps : ∀ f ∈ p.functions, Stmt.everyStepIn Evaluation.isPlainStep f.body = true
  results : ∀ f ∈ p.functions, ¬ p.IsVoidName f.ret

namespace Evaluation
open Eval (ZeroError)
open Reference (Reading)

section
variable {b : Nat} {h : Heap}

/-- The variables of a new activation are its arguments. -/
private theorem declare_all {vs : List Value} {ts : List Tree} (hl : vs.length = ts.length) (names : List String)
    {f : Frame} (o : Owned b h (vs.zip ts ++ f.roots)) :
    ∃ g : Frame, g.values = (names.zip vs).foldl (fun fr p => fr.declare p.1 p.2) f.values ∧
      g.trees = (names.zip ts).foldl (fun fr p => fr.declare p.1 p.2) f.trees ∧ Owned b h g.roots := by
  induction vs generalizing ts names f with
  | nil =>
    obtain rfl := List.length_eq_zero_iff.mp hl.symm
    exact ⟨f, by simp, by simp, o⟩
  | cons v vs ih =>
    obtain ⟨t, ts, rfl⟩ := List.exists_cons_of_length_eq_add_one hl.symm
    cases names with
    | nil => exact ⟨f, rfl, rfl, o.subperm (List.sublist_append_right _ _).subperm⟩
    | cons n names =>
      have hroots : (f.declare n (v, t)).roots.Perm ((v, t) :: f.roots) := by
        rw [Frame.roots_declare]
        exact .swap _ _ _
      have o' : Owned b h (vs.zip ts ++ (f.declare n (v, t)).roots) :=
        o.perm (List.perm_middle.symm.trans (hroots.symm.append_left _))
      obtain ⟨g, hv, ht, og⟩ := ih (by simpa using hl) names o'
      exact ⟨g, by rw [hv, Frame.values_declare]; rfl, by rw [ht, Frame.trees_declare]; rfl, og⟩

private theorem openFrame_both {vs : List Value} {ts : List Tree} (f : FunDecl) (hf : Fresh b h vs ts) :
    ∃ g : Frame, g.values = Eval.openFrame f vs ∧ g.trees = Reference.openFrame f ts ∧ Owned b h g.roots := by
  have o : Owned b h (vs.zip ts ++ Frame.roots ⟨[[]], false, (.null, .null)⟩) :=
    (hf.owned.leaf (v := .null) rfl).perm (List.perm_append_singleton _ _).symm
  exact declare_all hf.length_eq (f.params.map Prod.fst) o

end

section
variable {p : Source.Program} {f : FunDecl} {reading : Reading}

private theorem endsOpen_lowered (hn : ¬ p.IsVoidName f.ret) :
    Reference.endsOpen .lowered p f = true ↔ f.ret = .void := by
  unfold Reference.endsOpen
  dsimp only
  split
  · rename_i t ht
    exact Lower.isVoid_of_layout ht hn
  · rename_i e he
    constructor
    · intro h
      cases h
    · intro hv
      rw [hv] at he
      cases he

/-- Both run past the end of the same functions. -/
private theorem endsOpen_read (hn : reading = .lowered → ¬ p.IsVoidName f.ret) :
    Reference.endsOpen reading p f = true ↔ f.ret = .void := by
  cases reading with
  | literal => simp [Reference.endsOpen]
  | lowered => exact endsOpen_lowered (hn rfl)

/-- Calls of functions of the program come to the same results. -/
theorem call_both (hp : reading = .lowered → p.Plain ∧ p.FieldsDistinct) (rounds left : Nat) :
    Calls p (Eval.call p rounds left) (Reference.call reading p rounds left) := by
  induction left with
  | zero =>
    intro b f hf vs ts st hb hfresh
    exact .throw rfl
  | succ left ih =>
    intro b f hf vs ts st hb hfresh
    have hl := hfresh.length_eq
    rw [Eval.call, Reference.call]
    by_cases hargs : vs.length = f.params.length
    · have hargs' : ts.length = f.params.length := hl ▸ hargs
      rw [if_neg (fun h : vs.length ≠ f.params.length => h hargs), if_neg (fun h : ts.length ≠ f.params.length => h hargs')]
      obtain ⟨g, hv, ht, o⟩ := openFrame_both f hfresh
      have hty := fun hr => (hp hr).2.function hf
      simp only [FunDecl.everyTy, Bool.and_eq_true, imp_and] at hty
      have hbody := inScope_both (runAll_both (h := ⟨p, f.name, rounds, _, _, ih⟩) (fun hr => (hp hr).2) f.body
        hty.2 (fun hr => (hp hr).1.steps f hf) (Frame.owned_enter o) hb)
      rw [hv, ht] at hbody
      refine hbody.bind ?_
      rintro ⟨_, fr⟩ st' ⟨_, fr'⟩ ⟨g', hr, hr', hk, o'⟩
      dsimp only at hr hr' ⊢
      subst hr hr'
      have hresult : Fresh b st'.heap [g'.result.1] [g'.result.2] := o'.forest (by simp [Frame.roots])
      dsimp only [Frame.values, Frame.trees]
      by_cases hret : g'.returned = true
      · rw [if_pos hret, if_pos hret]
        exact .pure ⟨hk, hresult⟩
      · rw [if_neg hret, if_neg hret]
        have hopen := endsOpen_read fun hr => (hp hr).1.results f hf
        by_cases hvoid : f.ret = .void
        · rw [if_pos hvoid, if_pos (hopen.mpr hvoid)]
          exact .pure ⟨hk, .leaf _ _ rfl⟩
        · rw [if_neg hvoid, if_neg (fun h => hvoid (hopen.mp h))]
          exact .throw rfl
    · rw [if_pos hargs, if_pos (by rwa [← hl]), hl]
      exact .throw rfl

end

/-- A zero value is made on both sides, or there is none for the same reason. -/
private def Zeroes (h : Heap) (x : Except ZeroError (Value × Heap)) (y : Except ZeroError Tree) : Prop :=
  (∃ e, x = .error e ∧ y = .error e) ∨
    ∃ v h' t, x = .ok (v, h') ∧ y = .ok t ∧ h.Extends h' ∧ Fresh h.cells.size h' [v] [t]

section
variable {onName : String → Heap → Except ZeroError (Value × Heap)} {onName' : String → Except ZeroError Tree}

mutual

private theorem zeroWith_both (hn : ∀ n h, Zeroes h (onName n h) (onName' n)) : ∀ (t : Ty) (h : Heap),
    Zeroes h (Eval.zeroWith onName h t) (Reference.zeroWith onName' t)
  | .int, h => .inr ⟨_, h, _, rfl, rfl, .refl h, .leaf _ _ rfl⟩
  | .bool, h => .inr ⟨_, h, _, rfl, rfl, .refl h, .leaf _ _ rfl⟩
  | .string, h => .inr ⟨_, h, _, rfl, rfl, .refl h, .leaf _ _ rfl⟩
  | .list _, h => .inr ⟨_, _, _, rfl, rfl, .alloc h _, (Fresh.nil _ h).alloc (c := .list []) (Nat.le_refl _) rfl⟩
  | .void, h => .inl ⟨_, rfl, rfl⟩
  | .named n, h => hn n h
  | .record fs, h => by
    rcases zeroFieldsWith_both hn fs h with ⟨e, hx, hy⟩ | ⟨vs, h', ts, hx, hy, hnames, he, hf⟩
    · exact .inl ⟨e, by simp [Eval.zeroWith, hx, bind, Except.bind], by simp [Reference.zeroWith, hy, bind, Except.bind]⟩
    · have ha := hf.alloc (c := .record vs) he.size_le rfl
      rw [Cell.shape, hnames] at ha
      exact .inr ⟨_, _, _, by simp [Eval.zeroWith, hx, bind, Except.bind],
        by simp [Reference.zeroWith, hy, bind, Except.bind], he.trans (.alloc h' _), ha⟩

private theorem zeroFieldsWith_both (hn : ∀ n h, Zeroes h (onName n h) (onName' n)) : ∀ (fs : List (String × Ty)) (h : Heap),
    (∃ e, Eval.zeroFieldsWith onName h fs = .error e ∧ Reference.zeroFieldsWith onName' fs = .error e) ∨
      ∃ vs h' ts, Eval.zeroFieldsWith onName h fs = .ok (vs, h') ∧ Reference.zeroFieldsWith onName' fs = .ok ts ∧
        vs.map Prod.fst = fs.map Prod.fst ∧ h.Extends h' ∧ Fresh h.cells.size h' (vs.map Prod.snd) ts
  | [], h => .inr ⟨[], h, [], rfl, rfl, rfl, .refl h, .nil _ h⟩
  | (n, t) :: fs, h => by
    rcases zeroWith_both hn t h with ⟨e, hx, hy⟩ | ⟨v, h₁, u, hx, hy, he, hf⟩
    · exact .inl ⟨e, by simp [Eval.zeroFieldsWith, hx, bind, Except.bind],
        by simp [Reference.zeroFieldsWith, hy, bind, Except.bind]⟩
    · rcases zeroFieldsWith_both hn fs h₁ with ⟨e, hx', hy'⟩ | ⟨vs, h₂, us, hx', hy', hnames, he', hf'⟩
      · exact .inl ⟨e, by simp [Eval.zeroFieldsWith, hx, hx', bind, Except.bind],
          by simp [Reference.zeroFieldsWith, hy, hy', bind, Except.bind]⟩
      · exact .inr ⟨(n, v) :: vs, h₂, u :: us, by simp [Eval.zeroFieldsWith, hx, hx', bind, Except.bind],
          by simp [Reference.zeroFieldsWith, hy, hy', bind, Except.bind], by simp [hnames], he.trans he',
          hf.cons he' he.size_le hf'⟩

end

end

private theorem zeroName_both (aliases : Aliases) (left : Nat) : ∀ (n : String) (h : Heap),
    Zeroes h (Eval.zeroName aliases left n h) (Reference.zeroName aliases left n) := by
  induction left with
  | zero => exact fun n h => .inl ⟨_, rfl, rfl⟩
  | succ left ih =>
    intro n h
    rw [Eval.zeroName, Reference.zeroName]
    cases aliases.underlying (.named n) with
    | error e => exact .inl ⟨_, rfl, rfl⟩
    | ok t => exact zeroWith_both ih t h

/-- What is the zero value over trees is made out of new cells. -/
theorem zero_fresh {aliases : Aliases} {t : Ty} {u : Tree} (hz : Reference.zero aliases t = .ok u) (h : Heap) :
    ∃ v h', Eval.zero aliases h t = .ok (v, h') ∧ h.Extends h' ∧ Fresh h.cells.size h' [v] [u] := by
  rcases zeroWith_both (zeroName_both aliases (aliases.length + 1)) t h with ⟨e, -, hy⟩ | ⟨v, h', u', hx, hy, he, hf⟩
  · cases hz.symm.trans hy
  · cases hz.symm.trans hy
    exact ⟨v, h', hx, he, hf⟩

theorem zeroParams_both (aliases : Aliases) (function : String) (ps : List (String × Ty)) {st : Store} :
    Both st (Eval.zeroParams aliases function ps) (Reference.zeroParams aliases function ps) (GivesAll st.heap) := by
  induction ps generalizing st with
  | nil => exact .pure ⟨.refl _, .nil _ _⟩
  | cons q ps ih =>
    obtain ⟨n, t⟩ := q
    rw [Eval.zeroParams, Reference.zeroParams]
    refine .get ?_
    rcases zeroWith_both (zeroName_both aliases (aliases.length + 1)) t st.heap with
      ⟨e, hx, hy⟩ | ⟨v, h', u, hx, hy, he, hf⟩
    · simp only [Eval.zero, hx, Reference.zero, hy]
      exact .throw rfl
    · simp only [Eval.zero, hx, Reference.zero, hy]
      have hrest : Both st (modify (fun s => { s with heap := h' }) >>= fun _ => Eval.zeroParams aliases function ps)
          (Reference.zeroParams aliases function ps) fun vs st' us =>
            h'.Extends st'.heap ∧ Fresh h'.cells.size st'.heap vs us := @ih { st with heap := h' }
      rw [← bind_assoc]
      refine hrest.map ?_
      rintro vs st' us ⟨he', hf'⟩
      exact ⟨he.trans he', hf.cons he' he.size_le hf'⟩

theorem runEntry_both {p : Source.Program} {reading : Reading} (hp : reading = .lowered → p.Plain ∧ p.FieldsDistinct)
    (rounds : Nat) :
    Both Store.empty (Eval.runEntry p rounds) (Reference.runEntry reading p rounds) fun _ _ _ => True := by
  unfold Eval.runEntry Reference.runEntry
  cases he : p.entry? with
  | none => exact .throw rfl
  | some f =>
    have hf : f ∈ p.functions := List.mem_of_find?_eq_some he
    refine (zeroParams_both p.aliases f.name f.params).bind ?_
    rintro vs st ts ⟨hext, hfresh⟩
    refine (call_both hp rounds maxCallDepth _ f hf vs ts st hext.size_le hfresh).bind ?_
    intro v st' t _
    exact .pure trivial

end Evaluation

/-- The outcome of an evaluation over trees. -/
def Reference.outcome : EStateM.Result Eval.Stop String Unit → Eval.Outcome
  | .ok _ o => ⟨o, none⟩
  | .error e o => ⟨o, some e⟩

/-- A program runs with a heap as it runs over trees, and a plain one whose record types have distinct fields like compiled
code. -/
theorem Evaluation.run_eq_outcome {p : Source.Program} (reading : Reference.Reading)
    (hp : reading = .lowered → p.Plain ∧ p.FieldsDistinct) (rounds : Nat) :
    Eval.run p rounds = Reference.outcome (Reference.runEntry reading p rounds "") := by
  have h := runEntry_both hp rounds
  unfold Both at h
  unfold Eval.run
  split at h
  · rename_i hx hy
    rw [hx, show Reference.runEntry reading p rounds "" = _ from hy]
    exact congrArg (Eval.Outcome.mk · none) h.1
  · rename_i hx hy
    rw [hx, show Reference.runEntry reading p rounds "" = _ from hy]
    exact congr (congrArg Eval.Outcome.mk h.1) (congrArg some h.2)
  · exact h.elim

end WhileStack
