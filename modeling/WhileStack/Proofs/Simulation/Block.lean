import WhileStack.Proofs.Simulation.Stmt

/-! The code of branches, loops and sequences of statements. A loop goes back to its condition with the variables it
started with, whatever its body and its step have declared. -/
namespace WhileStack.Simulation
open Source (Expr Stmt)
open Machine (Program Code Ty realCount realCount_append placed_cons placed_mark placed_append)
open Lower (LowersStmt LowersBlock Symbols ifChunk loopChunk label)
open OnTrees (State Operand Jump)
open OnTrees.Operand (own)
open Reference (Frame Run runStmt runAll loop stepOf inScope)

section
variable {p : Program} {rounds : Nat} {site : Site} {h : Lower.Host} {symbols symbols' : Symbols} {fr : Frame}
  {L : List Tree} {o : String} {k n mid : Nat} {s : State}

/-- What stands behind a statement is run unless that one returned. -/
private theorem next_meets {x rest : Run Unit} (hx : Meets p rounds s (x fr o) (Ended site h symbols mid))
    (hr : ∀ fr o k L, Stands site h symbols fr L →
      Meets p rounds (site.state o k L [] mid) (rest fr o) (Ended site h symbols' n)) :
    Meets p rounds s ((x >>= fun _ => get >>= fun fr => if fr.returned = true then pure () else rest) fr o)
      (Ended site h symbols' n) := by
  refine hx.bindRun fun _ fr o s hs => ?_
  have he : (get >>= fun fr => if fr.returned = true then pure () else rest : Run Unit) fr o =
      (if fr.returned = true then pure () else rest : Run Unit) fr o := rfl
  rw [he]
  cases hs with
  | runs st =>
    rw [if_neg (by simp [st.returned_eq])]
    exact hr _ _ _ _ st
  | returns hret ht hi =>
    rw [if_pos hret]
    exact .ok (.returns hret ht hi)

private theorem branch_jump (b : Bool) (d : Machine.Dest) (S : List Operand) :
    Jump (.ifeq d) (own (.leaf (.bool b)) :: S) (if b then none else some d) S := by
  have := Jump.ifeq (d := d) (S := S) (show Machine.intOf? (.bool b) = some (if b then 1 else 0) from rfl)
  cases b <;> simpa using this

/-- A round of a loop starts where the last one did, and takes at least the step back to the start. -/
private theorem loop_meets {cond : Run Bool} {body step : Run Unit} {top test back done m : Nat}
    (hcond : ∀ fr o k L, Stands site h symbols fr L → Meets p rounds (site.state o k L [] top) (cond fr o)
      fun x o s => x.2 = fr ∧ ∃ k, s = site.state o k L [own (.leaf (.bool x.1))] test)
    (htest : site.method.code[test]? = some (.ifeq (.toIndex done)))
    (hbody : ∀ fr o k L, Stands site h symbols fr L →
      Meets p rounds (site.state o k L [] (test + 1)) (body fr o) (Ended site h symbols mid))
    (hstep : ∀ fr o k L, Stands site h symbols fr L →
      Meets p rounds (site.state o k L [] mid) (step fr o) (Ended site h symbols back))
    (hback : site.method.code[back]? = some (.goto (.toIndex top))) (hm : m ≤ rounds) (st : Stands site h symbols fr L) :
    Meets p m (site.state o k L [] top) (loop .lowered cond body step m fr o) (Ended site h symbols done) := by
  induction m generalizing fr o k L with
  | zero => exact ⟨0, _, .refl, Nat.le_refl 0⟩
  | succ m ih =>
    rw [loop]
    refine ((hcond fr o k L st).mono hm).bindRun ?_
    rintro b fr' o s ⟨hfr, k, hs⟩
    dsimp only at hfr hs
    subst hfr
    rw [hs]
    have hj := branch_jump b (.toIndex done) []
    cases b with
    | false => exact site.jump htest hj (.ok (.runs st))
    | true =>
      refine site.fall htest hj (next_meets ((hbody _ _ _ _ st).mono hm) fun fr o k L st => ?_)
      refine next_meets ((hstep _ _ _ _ st).mono hm) fun fr o k L st => ?_
      exact .round (.jump (Site.instr?_eq hback) .goto) (ih (Nat.le_of_succ_le hm) st)

/-- What the step of a loop declares is forgotten. -/
private theorem stepOf_meets {step : Run Unit} (st : Stands site h symbols fr L) (hg : symbols.Grows symbols')
    (hs : Meets p rounds s (step fr o) (Ended site h symbols' n)) :
    Meets p rounds s (stepOf .lowered step fr o) (Ended site h symbols n) := by
  have he : stepOf .lowered step fr o = (step >>= fun _ => modify fun f => f.shrink fr.width) fr o := rfl
  rw [he, st.scopes.width_eq]
  refine hs.bindRun fun _ fr o s hs => ?_
  have hfr : (fr.shrink symbols.inner.length).returned = fr.returned ∧
      (fr.shrink symbols.inner.length).result = fr.result := by
    unfold Frame.shrink
    split <;> exact ⟨rfl, rfl⟩
  cases hs with
  | runs st =>
    obtain ⟨news, hnews⟩ := hg.inner
    exact .ok (.runs ⟨st.scopes.shrink hnews hg.outer_eq, hfr.1.trans st.returned_eq, hfr.2.trans st.result_eq, st.length_eq,
      st.receiver⟩)
  | returns hret ht hi =>
    rw [← hfr.2] at ht ⊢
    exact .ok (.returns (hfr.1.trans hret) ht hi)

private theorem ifChunk_placed {c y z : Code} {returns : Bool} {pc : Nat} (hp : site.Has pc (ifChunk n c y returns z)) :
    ∃ other, site.Has pc c ∧ site.method.code[pc + realCount c]? = some (.ifeq (.toIndex other)) ∧
      site.Has (pc + realCount c + 1) y ∧ site.Has other z ∧ other + realCount z = pc + realCount (ifChunk n c y returns z) ∧
      (returns = false →
        site.method.code[pc + realCount c + 1 + realCount y]? = some (.goto (.toIndex (other + realCount z)))) := by
  cases returns
  all_goals
    simp only [ifChunk, if_true, Bool.false_eq_true, if_false, placed_append, placed_cons (i := .ifeq _) rfl,
      placed_cons (i := .goto _) rfl, placed_mark, realCount_append, realCount, Machine.retarget_ifeq,
      Machine.retarget_goto, Nat.zero_add, Nat.add_zero, ← Nat.add_assoc] at hp ⊢
  · obtain ⟨⟨⟨⟨⟨⟨hpc, htest, -⟩, hpy⟩, hgoto, -⟩, h₁, -⟩, hpz⟩, h₂, -⟩ := hp
    rw [h₁] at htest
    rw [h₂] at hgoto
    exact ⟨_, hpc, htest, hpy, hpz, rfl, fun _ => hgoto⟩
  · obtain ⟨⟨⟨⟨⟨⟨hpc, htest, -⟩, hpy⟩, -⟩, h₁, -⟩, hpz⟩, h₂, -⟩ := hp
    rw [h₁] at htest
    exact ⟨_, hpc, htest, hpy, hpz, rfl, fun h => by cases h⟩

/-- Either branch ends behind both; one that returns on every path needs no jump to get there. -/
private theorem ifElse_meets {cond : Run Bool} {yes no : Run Unit} {c y z : Code} {returns : Bool} {pc : Nat}
    (hp : site.Has pc (ifChunk n c y returns z))
    (hcond : site.Has pc c → Meets p rounds (site.state o k L [] pc) (cond fr o)
      fun x o s => x.2 = fr ∧ ∃ k, s = site.state o k L [own (.leaf (.bool x.1))] (pc + realCount c))
    (hyes : ∀ o k pc, site.Has pc y →
      Meets p rounds (site.state o k L [] pc) (yes fr o) (Ended site h symbols (pc + realCount y)))
    (hret : returns = true → ∀ r o o', yes fr o = .ok r o' → r.2.returned = true)
    (hno : ∀ o k pc, site.Has pc z →
      Meets p rounds (site.state o k L [] pc) (no fr o) (Ended site h symbols (pc + realCount z))) :
    Meets p rounds (site.state o k L [] pc) ((cond >>= fun b => if b = true then yes else no) fr o)
      (Ended site h symbols (pc + realCount (ifChunk n c y returns z))) := by
  obtain ⟨other, hpc, htest, hpy, hpz, hdone, hgoto⟩ := ifChunk_placed hp
  rw [← hdone]
  refine (hcond hpc).bindRun ?_
  rintro b fr' o s ⟨hfr, k, hs⟩
  dsimp only at hfr hs
  subst hfr
  rw [hs]
  have hj := branch_jump b (.toIndex other) []
  cases b with
  | false => exact site.jump htest hj (hno o k other hpz)
  | true =>
    refine site.fall htest hj ?_
    cases returns with
    | true =>
      refine ((hyes o k _ hpy).also fun r o' hr => hret rfl r o o' hr).imp ?_
      rintro r o s ⟨hr, hs⟩
      cases hs with
      | runs st => simp [st.returned_eq] at hr
      | returns hr ht hi => exact .returns hr ht hi
    | false =>
      refine (hyes o k _ hpy).onward fun r o s hs => ?_
      cases hs with
      | runs st => exact site.jump (hgoto rfl) .goto (.ok (.runs st))
      | returns hr ht hi => exact .ok (.returns hr ht hi)

private theorem loopChunk_placed {c b u : Code} {pc : Nat} (hp : site.Has pc (loopChunk n c b u)) :
    site.Has pc c ∧ site.Has (pc + realCount c + 1) b ∧ site.Has (pc + realCount c + 1 + realCount b) u ∧
      site.method.code[pc + realCount c]? = some (.ifeq (.toIndex (pc + realCount (loopChunk n c b u)))) ∧
      site.method.code[pc + realCount c + 1 + realCount b + realCount u]? = some (.goto (.toIndex pc)) := by
  simp only [loopChunk, placed_append, placed_cons (i := .ifeq _) rfl, placed_cons (i := .goto _) rfl, placed_mark,
    realCount_append, realCount, Machine.retarget_ifeq, Machine.retarget_goto, Nat.zero_add, Nat.add_zero,
    ← Nat.add_assoc] at hp ⊢
  obtain ⟨⟨⟨⟨⟨⟨h₁, -⟩, hpc⟩, htest, -⟩, hpb⟩, hpu⟩, hback, h₂, -⟩ := hp
  rw [h₂] at htest
  rw [h₁] at hback
  exact ⟨hpc, hpb, hpu, htest, hback⟩

end

section
variable {p : Program} {rounds : Nat} {site : Site} {h : Lower.Host} {w : Reference.Host}

mutual

/-- The machine runs the code of a statement. -/
theorem stmt_meets {s s' : Lower.State} {stmt : Stmt} {c : Code} (f : Hosted p rounds site h w) (hv : s.symbols.Valid)
    (hs : s'.symbols.size ≤ site.method.maxLocals) (fr : Frame) (o : String) (k : Nat) (L : List Tree) (pc : Nat)
    (st : Stands site h s.symbols fr L) (hp : site.Has pc c) : LowersStmt h s stmt c s' →
      Meets p rounds (site.state o k L [] pc) (runStmt w stmt fr o) (Ended site h s'.symbols (pc + realCount c))
  | .decl hd => by
    rw [runStmt]
    refine (decl_meets f hv hs st hd hp).imp ?_
    rintro r o s ⟨L, k, st, hs⟩
    rw [hs]
    exact .runs st
  | .assign ha => assign_meets f hv st ha hp
  | .print he ht => by
    obtain ⟨hp, hi⟩ := hp.last rfl rfl
    rw [runStmt, Machine.realCount_snoc rfl, ← Nat.add_assoc]
    refine (eval_meets f hv st he hp).bindRun ?_
    rintro x fr' o s ⟨hfr, hx, k, hs⟩
    dsimp only at hfr hs
    subst hfr
    rw [hs, pushed_eq ht]
    exact site.act hi .print (.ok (.runs st))
  | .leave hret => by
    rw [runStmt]
    obtain ⟨hi, -⟩ := (placed_cons (i := .ret .void) rfl).mp hp
    exact .ok (.leave st hret (by rw [hret]; exact hi))
  | .ret he hret => by
    obtain ⟨hp, hi⟩ := hp.last rfl rfl
    rw [runStmt]
    refine (eval_meets f hv st he hp).bindRun ?_
    rintro x fr' o s ⟨hfr, hx, k, hs⟩
    dsimp only at hfr hx hs
    rw [hs]
    exact .ok (.returns (g := { fr' with returned := true, result := x }) rfl hx hi)
  | .effect (t := t) he => by
    obtain ⟨hp, hi⟩ := hp.append
    rw [runStmt, realCount_append, ← Nat.add_assoc]
    refine (eval_meets f hv st he hp).bindRun ?_
    rintro x fr' o s ⟨hfr, hx, k, hs⟩
    dsimp only at hfr hs
    subst hfr
    rw [hs]
    cases ht : t.isVoid with
    | true =>
      rw [pushed, if_pos ht]
      exact .ok (.runs st)
    | false =>
      rw [ht] at hi
      rw [pushed_eq ht]
      exact site.act hi.1 .pop (.ok (.runs st))
  | .ifElse hc hy hz => by
    have hyv := hy.valid hv.enter
    have hye := hy.grows.exit_eq
    have hze := hz.grows.exit_eq
    rw [hze.2.2] at hs
    have hs₁ := Nat.le_trans hz.grows.size_le hs
    rw [runStmt]
    refine ifElse_meets hp (fun hp => evalBool_meets f hv st hc hp) (fun o k pc hp => ?_) ?_ fun o k pc hp => ?_
    · refine (inScope_meets hy.grows (block_meets f hv.enter (hye.2.2 ▸ hs₁) fr.enter o k L pc st.enter hp hy)).imp ?_
      intro r o s hs
      exact hs.congr hze.1 hze.2.1
    · intro hret r o o' hr
      obtain ⟨fr', hb, hfr⟩ := Reference.inScope_eq_ok (g := r.2) hr
      have hret' := Reference.returned_of_allReturn _ hret hb
      rw [hfr]
      exact hret'
    · have st' := st.congr hye.1 hye.2.1
      exact inScope_meets hz.grows (block_meets f hyv.exit.enter hs fr.enter o k L pc st'.enter hp hz)
  | .whileDo hc hb => by
    have hbe := hb.grows.exit_eq
    rw [hbe.2.2] at hs
    obtain ⟨hpc, hpb, -, htest, hback⟩ := loopChunk_placed hp
    rw [runStmt, f.reading_eq, f.rounds_eq]
    refine (loop_meets (fun fr o k L st => evalBool_meets f hv st hc hpc) htest (fun fr o k L st => ?_)
      (fun fr o k L st => .ok (.runs st)) hback (Nat.le_refl _) st).imp fun r o s hs => hs.congr hbe.1 hbe.2.1
    refine (inScope_meets hb.grows (block_meets f hv.enter hs fr.enter o k L _ st.enter hpb hb)).imp fun r o s hs => ?_
    exact hs.congr hbe.1.symm hbe.2.1.symm
  | .forDo hi hc hb hu => by
    have hvi := hi.valid hv.enter
    have hie := hi.grows.exit_eq
    have hbe := hb.grows.exit_eq
    have hue := ((hi.grows.trans hb.grows.exit).trans hu.grows).exit_eq
    rw [hue.2.2] at hs
    have hs₂ := hbe.2.2 ▸ Nat.le_trans hu.grows.size_le hs
    have hs₁ := Nat.le_trans hb.grows.size_le hs₂
    obtain ⟨hpi, hpl⟩ := hp.append
    obtain ⟨hpc, hpb, hpu, htest, hback⟩ := loopChunk_placed hpl
    have hbody := fun fr o k L (st : Stands site h _ fr L) =>
      (inScope_meets hb.grows (block_meets f hvi.enter hs₂ fr.enter o k L _ st.enter hpb hb)).imp
        fun r o s hs => hs.congr hbe.1.symm hbe.2.1.symm
    have hstep := fun fr o k L (st : Stands site h _ fr L) =>
      (stepOf_meets (st.congr hbe.1 hbe.2.1) hu.grows
        (stmt_meets f (hb.valid hvi.enter).exit hs fr o k L _ (st.congr hbe.1 hbe.2.1) hpu hu)).imp
          fun r o s hs => hs.congr hbe.1.symm hbe.2.1.symm
    rw [runStmt, f.reading_eq, f.rounds_eq, realCount_append, ← Nat.add_assoc]
    -- The names of the loop are gone behind it, those that its step declared included.
    refine (inScope_meets hi.grows ?_).imp fun r o s hs => hs.congr (hue.1.trans hie.1.symm) (hue.2.1.trans hie.2.1.symm)
    refine (decl_meets f hv.enter ?_ st.enter hi hpi).bindRun ?_
    · exact hs₁
    rintro _ fr o s ⟨L, k, st, hs'⟩
    rw [hs']
    exact loop_meets (fun fr o k L st => evalBool_meets f hvi st hc hpc) htest hbody hstep hback (Nat.le_refl _) st

theorem block_meets {s s' : Lower.State} {stmts : List Stmt} {c : Code} (f : Hosted p rounds site h w)
    (hv : s.symbols.Valid) (hs : s'.symbols.size ≤ site.method.maxLocals) (fr : Frame) (o : String) (k : Nat)
    (L : List Tree) (pc : Nat) (st : Stands site h s.symbols fr L) (hp : site.Has pc c) : LowersBlock h s stmts c s' →
      Meets p rounds (site.state o k L [] pc) (runAll w stmts fr o) (Ended site h s'.symbols (pc + realCount c))
  | .nil => by
    rw [runAll]
    exact .ok (.runs st)
  | .cons hstmt hrest => by
    obtain ⟨hps, hpr⟩ := hp.append
    rw [runAll, realCount_append, ← Nat.add_assoc]
    have hs₁ := Nat.le_trans hrest.grows.size_le hs
    exact next_meets (stmt_meets f hv hs₁ fr o k L pc st hps hstmt)
      fun fr o k L st => block_meets f (hstmt.valid hv) hs fr o k L _ st hpr hrest

end

end
end WhileStack.Simulation
