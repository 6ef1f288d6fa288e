import WhileStack.Proofs.Simulation.Assign

/-! The code of statements does what the statements do: it ends with the variables in their slots and an empty stack, or
in front of a return with the result on it. -/
namespace WhileStack.Simulation
open Source (Expr Stmt VarDecl Target)
open Machine (Program Code Ty realCount realCount_append placed_cons placed_mark)
open Lower (LowersExpr LowersTarget LowersDecl LowersAssign LowersStmt LowersBlock Symbols ifChunk loopChunk label)
open OnTrees (State Operand)
open OnTrees.Operand (own)
open Reference (Frame Run evalExpr evalTarget runStmt runAll runDecl runAssign)

/-- What the code of statements relies on besides the variables. -/
structure Hosted (p : Program) (rounds : Nat) (site : Site) (h : Lower.Host) (w : Reference.Host) : Prop where
  reading_eq : w.reading = .lowered
  rounds_eq : w.rounds = rounds
  aliases_eq : w.program.aliases = h.env.aliases
  function_eq : w.function = site.method.name
  calls : Calls p rounds site.callers.length h.env w.program w.call

/-- A function that has not returned, with its variables in their slots. -/
structure Stands (site : Site) (h : Lower.Host) (symbols : Symbols) (fr : Frame) (L : List Tree) : Prop where
  scopes : Scoped L symbols fr.scopes
  returned_eq : fr.returned = false
  result_eq : fr.result = .null
  length_eq : L.length = site.method.maxLocals
  receiver : h.sig.isStatic = false → ∃ id cls, L[0]? = some (.leaf (.object id cls))

/-- Where statements end: in front of the next instruction, or of a return. -/
inductive Ended (site : Site) (h : Lower.Host) (symbols : Symbols) (n : Nat) : Unit × Frame → String → State → Prop where
  | runs {fr L o k} : Stands site h symbols fr L → Ended site h symbols n ((), fr) o (site.state o k L [] n)
  | returns {g L o k m} : g.returned = true → HasTy g.result h.sig.ret → site.method.code[m]? = some (.ret h.sig.ret) →
    Ended site h symbols n ((), g) o (site.state o k L (pushed h.sig.ret g.result []) m)

section
variable {p : Program} {rounds : Nat} {site : Site} {h : Lower.Host} {w : Reference.Host} {symbols symbols' : Symbols}
  {fr : Frame} {L : List Tree} {S : List Operand} {o : String} {k pc n n' : Nat} {e : Expr} {c : Code} {t : Ty}

namespace Stands

/-- Only the names that can be seen matter. -/
theorem congr (st : Stands site h symbols fr L) (hi : symbols'.inner = symbols.inner) (ho : symbols'.outer = symbols.outer) :
    Stands site h symbols' fr L := by
  refine ⟨?_, st.returned_eq, st.result_eq, st.length_eq, st.receiver⟩
  unfold Scoped
  rw [hi, ho]
  exact st.scopes

theorem enter (st : Stands site h symbols fr L) : Stands site h symbols.enter fr.enter L :=
  ⟨st.scopes.enter, st.returned_eq, st.result_eq, st.length_eq, st.receiver⟩

theorem exit (st : Stands site h symbols fr L) (ho : symbols.outer ≠ []) : Stands site h symbols.exit fr.exit L :=
  ⟨st.scopes.exit ho, st.returned_eq, st.result_eq, st.length_eq, st.receiver⟩

theorem ready (st : Stands site h symbols fr L) (f : Hosted p rounds site h w) (hv : symbols.Valid) :
    Ready p rounds site (h.view symbols) ⟨w.reading, w.program, w.function, fr.scopes, w.call⟩ L :=
  ⟨f.reading_eq, f.aliases_eq, f.function_eq, hv, st.scopes, st.receiver, f.calls⟩

/-- A new variable gets the next slot. -/
theorem declare {d : VarDecl} {x : Tree} {l : Machine.Local} (st : Stands site h symbols fr L) (hv : symbols.Valid)
    (hl : symbols.declare d.name t = .ok (l, symbols')) (hs : symbols'.size ≤ site.method.maxLocals)
    (hx : x = .null ∨ HasTy x t) :
    l.slot < L.length ∧ Stands site h symbols' (fr.declare d.name x) (L.set l.slot x) := by
  obtain ⟨-, hslot, hsym⟩ := Symbols.declare_eq_ok hl
  have hsize : symbols.size < L.length := by
    rw [st.length_eq]
    exact Nat.lt_of_lt_of_le (by rw [hsym]; exact Nat.lt_succ_self _) hs
  have hfr : (fr.declare d.name x).returned = fr.returned ∧ (fr.declare d.name x).result = fr.result := by
    unfold Frame.declare
    split <;> exact ⟨rfl, rfl⟩
  refine ⟨by rw [hslot]; exact hsize, st.scopes.declare hv hl (st.length_eq ▸ hs) hx, ?_, ?_, ?_, fun hstatic => ?_⟩
  · rw [hfr.1, st.returned_eq]
  · rw [hfr.2, st.result_eq]
  · rw [List.length_set, st.length_eq]
  · rw [List.getElem?_set_ne (by rw [hslot]; exact Nat.ne_of_gt hv.reserved)]
    exact st.receiver hstatic

end Stands

theorem Ended.congr {r : Unit × Frame} {s : State} (he : Ended site h symbols n r o s) (hi : symbols'.inner = symbols.inner)
    (ho : symbols'.outer = symbols.outer) : Ended site h symbols' n r o s := by
  cases he with
  | runs st => exact .runs (st.congr hi ho)
  | returns hr ht hi => exact .returns hr ht hi

theorem Ended.leave (st : Stands site h symbols fr L) (hret : h.sig.ret = .void)
    (hi : site.method.code[pc]? = some (.ret h.sig.ret)) :
    Ended site h symbols' n ((), { fr with returned := true }) o (site.state o k L [] pc) := by
  have hp : [] = pushed h.sig.ret fr.result [] := by
    rw [hret]
    rfl
  rw [hp]
  refine .returns (g := { fr with returned := true }) rfl ?_ hi
  rw [hret, st.result_eq]
  exact .void

/-- A scope that statements open is left again behind them. -/
theorem inScope_meets {body : Run Unit} {s : State} (hg : symbols.enter.Grows symbols')
    (hb : Meets p rounds s (body fr.enter o) (Ended site h symbols' n)) :
    Meets p rounds s (Reference.inScope body fr o) (Ended site h symbols'.exit n) := by
  have he : Reference.inScope body fr o = (body >>= fun _ => modify Frame.exit) fr.enter o := rfl
  rw [he]
  refine hb.bindRun fun _ fr o s hs => ?_
  cases hs with
  | runs st => exact .ok (.runs (st.exit (by simp [hg.outer_eq, Symbols.enter])))
  | returns hr ht hi => exact .ok (.returns (g := fr.exit) hr ht hi)

theorem eval_meets (f : Hosted p rounds site h w) (hv : symbols.Valid) (st : Stands site h symbols fr L)
    (he : LowersExpr (h.view symbols) n e c t n') (hp : site.Has pc c) :
    Meets p rounds (site.state o k L S pc) (Reference.eval w e fr o)
      fun x o s => x.2 = fr ∧ Yields site L S (pc + realCount c) t x.1 o s :=
  (expr_meets (st.ready f hv) o k S pc hp he).bind fun _ _ _ hx => .ok ⟨rfl, hx⟩

theorem evalBool_meets (f : Hosted p rounds site h w) (hv : symbols.Valid) (st : Stands site h symbols fr L)
    (he : LowersExpr (h.view symbols) n e c .boolean n') (hp : site.Has pc c) :
    Meets p rounds (site.state o k L S pc) (Reference.evalBool w e fr o)
      fun x o s => x.2 = fr ∧ ∃ k, s = site.state o k L (own (.leaf (.bool x.1)) :: S) (pc + realCount c) :=
  (needBool_meets (expr_meets (st.ready f hv) o k S pc hp he)).bind fun _ _ _ hx => .ok ⟨rfl, hx⟩

theorem decl_meets {s s' : Lower.State} {d : VarDecl} (f : Hosted p rounds site h w) (hv : s.symbols.Valid)
    (hs : s'.symbols.size ≤ site.method.maxLocals) (st : Stands site h s.symbols fr L) (hd : LowersDecl h s d c s')
    (hp : site.Has pc c) :
    Meets p rounds (site.state o k L [] pc) (runDecl w d fr o) fun r o s =>
      ∃ L k, Stands site h s'.symbols r.2 L ∧ s = site.state o k L [] (pc + realCount c) := by
  cases hd with
  | init hi _ he ht hl =>
    obtain ⟨hp, hstore⟩ := hp.last rfl rfl
    rw [Machine.realCount_snoc rfl, ← Nat.add_assoc]
    simp only [runDecl, hi]
    refine (eval_meets f hv st he hp).bindRun ?_
    rintro x fr' o s ⟨hfr, hx, k, hs'⟩
    dsimp only at hfr hx hs'
    rw [hs', pushed_eq ht, hfr]
    obtain ⟨hlt, st'⟩ := st.declare hv hl hs (.inr hx)
    exact site.act hstore (.store hlt) (.ok ⟨_, k, st', rfl⟩)
  | unset hi _ hl =>
    simp only [runDecl, hi]
    obtain ⟨hlt, st'⟩ := st.declare hv hl hs (.inl rfl)
    exact site.act hp.1 (.clear hlt) (.ok ⟨_, k, st', rfl⟩)

/-- What an assignment leaves behind when a child of its place is replaced. -/
theorem Stands.write {x u : Tree} {ty ty' : Ty} {spot : Reference.Spot} {y : Operand} {i : Nat} (hv : symbols.Valid)
    (st : Stands site h symbols fr L) (hy : Located symbols L x ty spot y) (hl : Leads ty [i] ty') (hu : HasTy u ty') :
    Stands site h symbols { fr with scopes := spot.write i u fr.scopes } (y.write L i u) := by
  obtain ⟨hsc, hlen, h0⟩ := hy.write hv st.scopes hl hu
  exact ⟨hsc, st.returned_eq, st.result_eq, hlen.trans st.length_eq, fun hstatic => h0 ▸ st.receiver hstatic⟩

theorem Stands.set {name : String} {l : Machine.Local} {x : Tree} (hv : symbols.Valid)
    (st : Stands site h symbols fr L) (hl : symbols.lookup? name = some l) (hx : HasTy x l.ty) :
    l.slot < L.length ∧ ∃ scopes, Reference.setVar name x fr.scopes = some scopes ∧
      Stands site h symbols { fr with scopes := scopes } (L.set l.slot x) := by
  obtain ⟨y, -, hb⟩ := st.scopes.lookup hl
  have hlt := (List.getElem?_eq_some_iff.mp hb.slot_eq).1
  obtain ⟨hpos, -⟩ := hv.bound _ (Symbols.mem_of_lookup? hl)
  obtain ⟨scopes, hset, hsc⟩ := st.scopes.set hv hl hlt (.inr hx)
  refine ⟨hlt, scopes, hset, hsc, st.returned_eq, st.result_eq, by rw [List.length_set, st.length_eq], fun hstatic => ?_⟩
  rw [List.getElem?_set_ne (Nat.ne_of_gt hpos)]
  exact st.receiver hstatic

theorem assign_meets {target : Target} {value : Expr} (f : Hosted p rounds site h w) (hv : symbols.Valid)
    (st : Stands site h symbols fr L) (ha : LowersAssign (h.view symbols) n value target c n') (hp : site.Has pc c) :
    Meets p rounds (site.state o k L [] pc) (runAssign w target value fr o) (Ended site h symbols (pc + realCount c)) := by
  have r := st.ready f hv
  cases ha with
  | var he ht hl =>
    obtain ⟨hp, hstore⟩ := hp.last rfl rfl
    rw [Machine.realCount_snoc rfl, ← Nat.add_assoc]
    refine (eval_meets f hv st he hp).bindRun ?_
    rintro x fr' o s ⟨hfr, hx, k, hs⟩
    dsimp only at hfr hx hs
    subst hfr
    obtain ⟨hlt, scopes, hset, st'⟩ := Stands.set hv st hl hx
    rw [hs, pushed_eq ht, Reference.assignTo_var, hset]
    exact site.act hstore (.store hlt) (.ok (.runs st'))
  | index he ht hsource hpos =>
    obtain ⟨hp, hi⟩ := hp.last rfl rfl
    obtain ⟨hp, hpp⟩ := hp.append
    obtain ⟨hpe, hps⟩ := hp.append
    rw [realCount_append, realCount_append, ← Nat.add_assoc, ← Nat.add_assoc] at hi
    rw [realCount_append, ← Nat.add_assoc] at hpp
    rw [Machine.realCount_snoc rfl, realCount_append, realCount_append, ← Nat.add_assoc, ← Nat.add_assoc, ← Nat.add_assoc]
    refine (eval_meets f hv st he hpe).bindRun ?_
    rintro x fr' o s ⟨hfr, hx, k, hs⟩
    dsimp only at hfr hx hs
    subst hfr
    rw [hs, pushed_eq ht, Reference.assignTo_index]
    refine (target_meets r hsource rfl o k _ _ hps).bind ?_
    rintro ⟨spot, l⟩ o s ⟨hlist, y, k, hy, hs⟩
    dsimp only at hlist hy
    cases hlist with
    | list hts =>
      rw [hs]
      refine element_meets r.function_eq (expr_meets r o k _ _ hpp hpos) hi (fun j e o k he => .listStore hy.read he) ?_
      intro j m o k hm
      exact site.act hi (.listStore hy.read hm) (.ok (.runs (st.write hv hy (.elem .nil) hx)))
  | field he ht hsource hf =>
    obtain ⟨hp, hi⟩ := hp.last rfl rfl
    obtain ⟨hpe, hps⟩ := hp.append
    rw [realCount_append, ← Nat.add_assoc] at hi
    rw [Machine.realCount_snoc rfl, realCount_append, ← Nat.add_assoc, ← Nat.add_assoc]
    refine (eval_meets f hv st he hpe).bindRun ?_
    rintro x fr' o s ⟨hfr, hx, k, hs⟩
    dsimp only at hfr hx hs
    subst hfr
    rw [hs, pushed_eq ht, Reference.assignTo_field]
    refine (target_meets r hsource rfl o k _ _ hps).bind ?_
    rintro ⟨spot, l⟩ o s ⟨hrecord, y, k, hy, hs⟩
    dsimp only at hrecord hy
    cases hrecord with
    | record hts =>
      obtain ⟨j, z, hk, hfind, hn, hj, hz⟩ := HasTy.findField_ok hts hf
      rw [Nat.zero_add] at hk
      subst hk
      rw [hs]
      simp only [Tree.record?_record, Option.bind_some, hfind]
      exact site.act hi (.putField hy.read (by simp [hn])) (.ok (.runs (st.write hv hy (.field hn .nil) hx)))

end
end WhileStack.Simulation
