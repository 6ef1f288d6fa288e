import WhileStack.Eval.Run
import WhileStack.Proofs.Exec
import WhileStack.Proofs.Source.Steps

/-! How the run of a statement goes: the states between its parts, the names it leaves visible, and whether it
returns. -/
namespace WhileStack.Eval
open Source (Expr Stmt VarDecl)

section
variable {h : Host} {fr fr' fr₁ : Frame} {st st' st₁ : Store} {e : Expr} {s : Stmt} {rest : List Stmt}

theorem eval_eq_ok {v : Value} (hr : eval h e fr st = .ok (v, fr') st') : fr' = fr := by
  have he : eval h e fr st = (evalExpr ⟨h.program, h.function, fr.scopes, h.call⟩ e >>= fun v => pure (v, fr)) st := rfl
  rw [he, Exec.bind_eq_ok] at hr
  obtain ⟨v, st₁, -, hr⟩ := hr
  cases hr
  rfl

theorem evalBool_eq_ok {b : Bool} (hr : evalBool h e fr st = .ok (b, fr') st') : fr' = fr := by
  have he : evalBool h e fr st =
      (needBool ⟨h.program, h.function, fr.scopes, h.call⟩ e (evalExpr ⟨h.program, h.function, fr.scopes, h.call⟩ e) >>=
        fun b => pure (b, fr)) st := rfl
  rw [he, Exec.bind_eq_ok] at hr
  obtain ⟨b, st₁, -, hr⟩ := hr
  cases hr
  rfl

theorem inScope_eq_ok {body : Run Unit} :
    inScope body fr st = .ok ((), fr') st' ↔ ∃ fr₁, body fr.enter st = .ok ((), fr₁) st' ∧ fr' = fr₁.exit := by
  have he : inScope body fr st = (body >>= fun _ => modify Frame.exit) fr.enter st := rfl
  rw [he, Exec.run_bind_eq_ok]
  constructor
  · rintro ⟨_, fr₁, st₁, hb, hm⟩
    cases hm
    exact ⟨fr₁, hb, rfl⟩
  · rintro ⟨fr₁, hb, rfl⟩
    exact ⟨(), fr₁, st', hb, rfl⟩

/-- The first statement of a sequence is followed by the others unless it returns. -/
theorem runAll_cons_eq_ok : runAll h (s :: rest) fr st = .ok ((), fr') st' ↔
    ∃ fr₁ st₁, runStmt h s fr st = .ok ((), fr₁) st₁ ∧
      (fr₁.returned = true ∧ fr' = fr₁ ∧ st' = st₁ ∨
        fr₁.returned = false ∧ runAll h rest fr₁ st₁ = .ok ((), fr') st') := by
  have he : ∀ fr₁ st₁, ((get : Run Frame) >>= fun f => if f.returned = true then pure () else runAll h rest) fr₁ st₁ =
      (if fr₁.returned = true then (pure () : Run Unit) else runAll h rest) fr₁ st₁ := fun _ _ => rfl
  rw [runAll, Exec.run_bind_eq_ok]
  constructor
  · rintro ⟨_, fr₁, st₁, hs, hr⟩
    refine ⟨fr₁, st₁, hs, ?_⟩
    rw [he] at hr
    cases hret : fr₁.returned with
    | true =>
      rw [hret] at hr
      cases hr
      exact .inl ⟨rfl, rfl, rfl⟩
    | false =>
      rw [hret] at hr
      exact .inr ⟨rfl, hr⟩
  · rintro ⟨fr₁, st₁, hs, ⟨hret, rfl, rfl⟩ | ⟨hret, hr⟩⟩
    · refine ⟨(), fr', st', hs, ?_⟩
      rw [he, hret]
      rfl
    · refine ⟨(), fr₁, st₁, hs, ?_⟩
      rw [he, hret]
      exact hr

/-- A round of a loop: the condition, the body and the step, with a return looked for behind the body. -/
theorem loop_succ_eq_ok {cond : Run Bool} {body step : Run Unit} {n : Nat} :
    loop cond body step (n + 1) fr st = .ok ((), fr') st' ↔
      cond fr st = .ok (false, fr') st' ∨
      ∃ fr₁ st₁ fr₂ st₂, cond fr st = .ok (true, fr₁) st₁ ∧ body fr₁ st₁ = .ok ((), fr₂) st₂ ∧
        (fr₂.returned = true ∧ fr' = fr₂ ∧ st' = st₂ ∨ fr₂.returned = false ∧ ∃ fr₃ st₃,
          step fr₂ st₂ = .ok ((), fr₃) st₃ ∧ loop cond body step n fr₃ st₃ = .ok ((), fr') st') := by
  have he : ∀ fr₂ st₂, ((get : Run Frame) >>= fun f =>
      if f.returned = true then pure () else step >>= fun _ => loop cond body step n) fr₂ st₂ =
      (if fr₂.returned = true then (pure () : Run Unit) else step >>= fun _ => loop cond body step n) fr₂ st₂ :=
    fun _ _ => rfl
  rw [loop, Exec.run_bind_eq_ok]
  constructor
  · rintro ⟨b, fr₁, st₁, hc, hr⟩
    cases b with
    | false =>
      cases hr
      exact .inl hc
    | true =>
      obtain ⟨_, fr₂, st₂, hb, hr⟩ := Exec.run_bind_eq_ok.mp hr
      refine .inr ⟨fr₁, st₁, fr₂, st₂, hc, hb, ?_⟩
      rw [he] at hr
      cases hret : fr₂.returned with
      | true =>
        rw [hret] at hr
        cases hr
        exact .inl ⟨rfl, rfl, rfl⟩
      | false =>
        rw [hret] at hr
        obtain ⟨_, fr₃, st₃, hs, hr⟩ := Exec.run_bind_eq_ok.mp hr
        exact .inr ⟨rfl, fr₃, st₃, hs, hr⟩
  · rintro (hc | ⟨fr₁, st₁, fr₂, st₂, hc, hb, hr⟩)
    · exact ⟨false, fr', st', hc, rfl⟩
    · refine ⟨true, fr₁, st₁, hc, Exec.run_bind_eq_ok.mpr ⟨(), fr₂, st₂, hb, ?_⟩⟩
      rw [he]
      rcases hr with ⟨hret, rfl, rfl⟩ | ⟨hret, fr₃, st₃, hs, hr⟩
      · rw [hret]
        rfl
      · rw [hret]
        exact Exec.run_bind_eq_ok.mpr ⟨(), fr₃, st₃, hs, hr⟩

/-- What each round of a loop keeps is kept by the loop. -/
theorem loop_keeps {R : Frame → Frame → Prop} (refl : ∀ f, R f f) (trans : ∀ f g k, R f g → R g k → R f k)
    {cond : Run Bool} {body step : Run Unit} (hc : ∀ f b g t t', cond f t = .ok (b, g) t' → g = f)
    (hb : ∀ f g t t', body f t = .ok ((), g) t' → R f g) (hs : ∀ f g t t', step f t = .ok ((), g) t' → R f g) {n : Nat}
    (hr : loop cond body step n fr st = .ok ((), fr') st') : R fr fr' := by
  induction n generalizing fr st with
  | zero => cases hr
  | succ n ih =>
    rcases loop_succ_eq_ok.mp hr with hr | ⟨fr₁, st₁, fr₂, st₂, hr₁, hr₂, hr⟩
    · rw [hc _ _ _ _ _ hr]
      exact refl fr
    · rw [hc _ _ _ _ _ hr₁] at hr₂
      rcases hr with ⟨-, rfl, -⟩ | ⟨-, fr₃, st₃, hr₃, hr⟩
      · exact hb _ _ _ _ hr₂
      · exact trans _ _ _ (trans _ _ _ (hb _ _ _ _ hr₂) (hs _ _ _ _ hr₃)) (ih hr)

end

/-- The names of the open scopes. -/
def Frame.names (f : Frame) : List (List String) := f.scopes.map fun s => s.map Prod.fst

/-- A name becomes visible in the innermost scope. -/
def addName {α : Type} (x : α) : List (List α) → List (List α)
  | [] => [[x]]
  | s :: rest => (x :: s) :: rest

section
variable {h : Host} {fr fr' : Frame} {st st' : Store} {name : String}

@[simp] theorem names_enter : fr.enter.names = [] :: fr.names := rfl

@[simp] theorem names_exit : fr.exit.names = fr.names.tail := by
  simp [Frame.exit, Frame.names]

@[simp] theorem names_declare (x : Value) : (fr.declare name x).names = addName name fr.names := by
  unfold Frame.declare Frame.names
  cases hs : fr.scopes with
  | nil => rfl
  | cons s rest => rfl

@[simp] theorem tail_addName {α : Type} (x : α) (ns : List (List α)) : (addName x ns).tail = ns.tail := by
  cases ns with
  | nil => rfl
  | cons s rest => rfl

theorem setFirst_names {x : Value} {s s' : Scope} (hs : setFirst name x s = some s') :
    s'.map Prod.fst = s.map Prod.fst := by
  induction s generalizing s' with
  | nil => cases hs
  | cons e rest ih =>
    obtain ⟨n, y⟩ := e
    simp only [setFirst] at hs
    split at hs
    · cases hs
      rfl
    · obtain ⟨rest', hr, rfl⟩ := Option.map_eq_some_iff.mp hs
      simp [ih hr]

theorem setVar_names {x : Value} {ss ss' : List Scope} (hs : setVar name x ss = some ss') :
    ss'.map (fun s => s.map Prod.fst) = ss.map fun s => s.map Prod.fst := by
  induction ss generalizing ss' with
  | nil => cases hs
  | cons s rest ih =>
    simp only [setVar] at hs
    split at hs
    · rename_i s' hf
      cases hs
      simp [setFirst_names hf]
    · obtain ⟨rest', hr, rfl⟩ := Option.map_eq_some_iff.mp hs
      simp [ih hr]

theorem runDecl_eq_ok {d : VarDecl} (hr : runDecl h d fr st = .ok ((), fr') st') : ∃ x, fr' = fr.declare d.name x := by
  unfold runDecl at hr
  cases hi : d.init with
  | none =>
    rw [hi] at hr
    cases hr
    exact ⟨.null, rfl⟩
  | some e =>
    rw [hi] at hr
    obtain ⟨x, fr₁, st₁, he, hr⟩ := Exec.run_bind_eq_ok.mp hr
    cases hr
    rw [eval_eq_ok he]
    exact ⟨x, rfl⟩

/-- An assignment leaves the names as they are. -/
theorem runAssign_eq_ok {target : Source.Target} {value : Expr} (hr : runAssign h target value fr st = .ok ((), fr') st') :
    fr'.names = fr.names ∧ fr'.returned = fr.returned ∧ fr'.result = fr.result := by
  obtain ⟨x, fr₁, st₁, he, hr⟩ := Exec.run_bind_eq_ok.mp hr
  rw [eval_eq_ok he] at hr
  obtain ⟨v, fr₂, st₂, hv, hr⟩ := Exec.run_bind_eq_ok.mp hr
  cases hv
  cases target with
  | var a name =>
    cases hs : setVar name x fr.scopes with
    | none =>
      simp only [hs] at hr
      cases hr
    | some scopes =>
      simp only [hs] at hr
      cases hr
      exact ⟨setVar_names hs, rfl, rfl⟩
  | index a source position =>
    dsimp only at hr
    rw [Exec.lift_bind] at hr
    obtain ⟨l, st₃, -, hr⟩ := Exec.bind_eq_ok.mp hr
    obtain ⟨_, st₄, -, hr⟩ := Exec.bind_eq_ok.mp hr
    cases hr
    exact ⟨rfl, rfl, rfl⟩
  | field a source name =>
    dsimp only at hr
    rw [Exec.lift_bind] at hr
    obtain ⟨l, st₃, -, hr⟩ := Exec.bind_eq_ok.mp hr
    obtain ⟨_, st₄, -, hr⟩ := Exec.bind_eq_ok.mp hr
    cases hr
    exact ⟨rfl, rfl, rfl⟩

theorem runReturn_eq_ok {value : Option Expr} (hr : runReturn h value fr st = .ok ((), fr') st') :
    fr'.returned = true ∧ fr'.scopes = fr.scopes := by
  unfold runReturn at hr
  cases value with
  | none =>
    cases hr
    exact ⟨rfl, rfl⟩
  | some e =>
    obtain ⟨x, fr₁, st₁, he, hr⟩ := Exec.run_bind_eq_ok.mp hr
    cases hr
    rw [eval_eq_ok he]
    exact ⟨rfl, rfl⟩

end

mutual

/-- A statement that returns on every path has returned when it ends. -/
theorem returned_of_returns {h : Host} {fr fr' : Frame} {st st' : Store} : ∀ (s : Stmt), Stmt.returns s = true →
    runStmt h s fr st = .ok ((), fr') st' → fr'.returned = true
  | .ret _ value, _, hr => (runReturn_eq_ok hr).1
  | .ifElse _ cond yes no, hs, hr => by
    obtain ⟨hy, hn⟩ := Bool.and_eq_true_iff.mp (by simpa only [Stmt.returns] using hs)
    rw [runStmt] at hr
    obtain ⟨b, fr₁, st₁, -, hr⟩ := Exec.run_bind_eq_ok.mp hr
    cases b with
    | true =>
      obtain ⟨fr₂, hb, hfr⟩ := inScope_eq_ok.mp hr
      have hret : fr₂.returned = true := returned_of_allReturn yes hy hb
      rw [hfr]
      exact hret
    | false =>
      obtain ⟨fr₂, hb, hfr⟩ := inScope_eq_ok.mp hr
      have hret : fr₂.returned = true := returned_of_allReturn no hn hb
      rw [hfr]
      exact hret
  | .decl _, hs, _ | .assign _ _ _, hs, _ | .print _ _, hs, _ | .whileDo _ _ _, hs, _ | .forDo _ _ _ _ _, hs, _
  | .expr _ _, hs, _ => by simp [Stmt.returns] at hs

theorem returned_of_allReturn {h : Host} {fr fr' : Frame} {st st' : Store} : ∀ (ss : List Stmt),
    Stmt.allReturn ss = true → runAll h ss fr st = .ok ((), fr') st' → fr'.returned = true
  | [], hs, _ => by simp [Stmt.allReturn] at hs
  | s :: rest, hs, hr => by
    obtain ⟨fr₁, st₁, hstmt, ⟨hret, rfl, -⟩ | ⟨hret, hr⟩⟩ := runAll_cons_eq_ok.mp hr
    · exact hret
    · cases rest with
      | nil =>
        have := returned_of_returns s (by simpa [Stmt.allReturn] using hs) hstmt
        simp [hret] at this
      | cons s' rest => exact returned_of_allReturn (s' :: rest) (by simpa [Stmt.allReturn] using hs) hr

end

mutual

/-- A statement changes the names of the innermost scope only, and only by declaring one itself. -/
theorem runStmt_names {h : Host} {fr fr' : Frame} {st st' : Store} : ∀ (s : Stmt),
    runStmt h s fr st = .ok ((), fr') st' → fr'.names.tail = fr.names.tail ∧ (s.isDecl = false → fr'.names = fr.names)
  | .decl d, hr => by
    obtain ⟨x, rfl⟩ := runDecl_eq_ok hr
    exact ⟨by simp, fun hd => by cases hd⟩
  | .assign _ target value, hr => by
    obtain ⟨hn, -⟩ := runAssign_eq_ok hr
    exact ⟨by rw [hn], fun _ => hn⟩
  | .print _ e, hr => by
    obtain ⟨x, fr₁, st₁, he, hr⟩ := Exec.run_bind_eq_ok.mp hr
    cases hr
    rw [eval_eq_ok he]
    exact ⟨rfl, fun _ => rfl⟩
  | .expr _ e, hr => by
    obtain ⟨x, fr₁, st₁, he, hr⟩ := Exec.run_bind_eq_ok.mp hr
    cases hr
    rw [eval_eq_ok he]
    exact ⟨rfl, fun _ => rfl⟩
  | .ret _ value, hr => by
    obtain ⟨-, hs⟩ := runReturn_eq_ok hr
    have hn : fr'.names = fr.names := by rw [Frame.names, hs, Frame.names]
    exact ⟨by rw [hn], fun _ => hn⟩
  | .ifElse _ cond yes no, hr => by
    rw [runStmt] at hr
    obtain ⟨b, fr₁, st₁, hc, hr⟩ := Exec.run_bind_eq_ok.mp hr
    rw [evalBool_eq_ok hc] at hr
    have hn : fr'.names = fr.names := by
      cases b with
      | true =>
        obtain ⟨fr₂, hb, rfl⟩ := inScope_eq_ok.mp hr
        simpa using runAll_names yes hb
      | false =>
        obtain ⟨fr₂, hb, rfl⟩ := inScope_eq_ok.mp hr
        simpa using runAll_names no hb
    exact ⟨by rw [hn], fun _ => hn⟩
  | .whileDo _ cond body, hr => by
    rw [runStmt] at hr
    have hn : fr'.names = fr.names := by
      refine loop_keeps (R := fun f g => g.names = f.names) (fun _ => rfl) (fun _ _ _ h h' => h'.trans h)
        (fun f b g t t' => evalBool_eq_ok) (fun f g t t' hb => ?_) (fun f g t t' hs => ?_) hr
      · obtain ⟨f₁, hin, rfl⟩ := inScope_eq_ok.mp hb
        simpa using runAll_names body hin
      · cases hs
        rfl
    exact ⟨by rw [hn], fun _ => hn⟩
  | .forDo _ init cond step body, hr => by
    rw [runStmt] at hr
    obtain ⟨fr₁, hin, rfl⟩ := inScope_eq_ok.mp hr
    obtain ⟨_, fr₂, st₂, hd, hloop⟩ := Exec.run_bind_eq_ok.mp hin
    obtain ⟨x, rfl⟩ := runDecl_eq_ok hd
    -- The step may declare a name as well, but in the scope of the loop, which is left.
    have hn : fr₁.names.tail = fr.names := by
      have hl := loop_keeps (R := fun f g => g.names.tail = f.names.tail) (fun _ => rfl)
        (fun _ _ _ h h' => h'.trans h) (fun f b g t t' => evalBool_eq_ok) (fun f g t t' hb => ?_)
        (fun f g t t' hs => (runStmt_names step hs).1) hloop
      · simpa using hl
      · obtain ⟨f₁, hin, rfl⟩ := inScope_eq_ok.mp hb
        have := runAll_names body hin
        rw [names_exit, this]
        rfl
    have hn' : fr₁.exit.names = fr.names := by rw [names_exit, hn]
    exact ⟨by rw [hn'], fun _ => hn'⟩

theorem runAll_names {h : Host} {fr fr' : Frame} {st st' : Store} : ∀ (ss : List Stmt),
    runAll h ss fr st = .ok ((), fr') st' → fr'.names.tail = fr.names.tail
  | [], hr => by
    cases hr
    rfl
  | s :: rest, hr => by
    obtain ⟨fr₁, st₁, hs, ⟨-, rfl, -⟩ | ⟨-, hr⟩⟩ := runAll_cons_eq_ok.mp hr
    · exact (runStmt_names s hs).1
    · exact (runAll_names rest hr).trans (runStmt_names s hs).1

end

/-- Nothing has been returned from one frame to another. -/
def Frame.Open (f g : Frame) : Prop := g.returned = f.returned ∧ g.result = f.result

theorem Frame.Open.refl (f : Frame) : f.Open f := ⟨rfl, rfl⟩

theorem Frame.Open.trans {f g k : Frame} (h : f.Open g) (h' : g.Open k) : f.Open k :=
  ⟨h'.1.trans h.1, h'.2.trans h.2⟩

theorem declare_open {f : Frame} {name : String} (x : Value) : f.Open (f.declare name x) := by
  unfold Frame.declare
  cases f.scopes with
  | nil => exact ⟨rfl, rfl⟩
  | cons s rest => exact ⟨rfl, rfl⟩

mutual

/-- A statement in which no return stands does not return. -/
theorem runStmt_open {h : Host} {fr fr' : Frame} {st st' : Store} : ∀ (s : Stmt), s.hasReturn = false →
    runStmt h s fr st = .ok ((), fr') st' → fr.Open fr'
  | .decl d, _, hr => by
    obtain ⟨x, rfl⟩ := runDecl_eq_ok hr
    exact declare_open x
  | .assign _ target value, _, hr => (runAssign_eq_ok hr).2
  | .print _ e, _, hr => by
    obtain ⟨x, fr₁, st₁, he, hr⟩ := Exec.run_bind_eq_ok.mp hr
    cases hr
    rw [eval_eq_ok he]
    exact .refl fr
  | .expr _ e, _, hr => by
    obtain ⟨x, fr₁, st₁, he, hr⟩ := Exec.run_bind_eq_ok.mp hr
    cases hr
    rw [eval_eq_ok he]
    exact .refl fr
  | .ret _ value, hs, _ => by simp [Stmt.hasReturn] at hs
  | .ifElse _ cond yes no, hs, hr => by
    simp only [Stmt.hasReturn, Bool.or_eq_false_iff] at hs
    rw [runStmt] at hr
    obtain ⟨b, fr₁, st₁, hc, hr⟩ := Exec.run_bind_eq_ok.mp hr
    rw [evalBool_eq_ok hc] at hr
    cases b with
    | true =>
      obtain ⟨fr₂, hb, rfl⟩ := inScope_eq_ok.mp hr
      have ho : fr.enter.Open fr₂ := runAll_open yes hs.1 hb
      exact ho
    | false =>
      obtain ⟨fr₂, hb, rfl⟩ := inScope_eq_ok.mp hr
      have ho : fr.enter.Open fr₂ := runAll_open no hs.2 hb
      exact ho
  | .whileDo _ cond body, hs, hr => by
    simp only [Stmt.hasReturn] at hs
    rw [runStmt] at hr
    refine loop_keeps Frame.Open.refl (fun _ _ _ => .trans) (fun f b g t t' => evalBool_eq_ok) (fun f g t t' hb => ?_)
      (fun f g t t' hs => ?_) hr
    · obtain ⟨f₁, hin, rfl⟩ := inScope_eq_ok.mp hb
      have ho : f.enter.Open f₁ := runAll_open body hs hin
      exact ho
    · cases hs
      exact .refl f
  | .forDo _ init cond step body, hs, hr => by
    simp only [Stmt.hasReturn, Bool.or_eq_false_iff] at hs
    rw [runStmt] at hr
    obtain ⟨fr₁, hin, rfl⟩ := inScope_eq_ok.mp hr
    obtain ⟨_, fr₂, st₂, hd, hloop⟩ := Exec.run_bind_eq_ok.mp hin
    obtain ⟨x, rfl⟩ := runDecl_eq_ok hd
    have hl := loop_keeps Frame.Open.refl (fun _ _ _ => .trans) (fun f b g t t' => evalBool_eq_ok)
      (fun f g t t' hb => ?_) (fun f g t t' h => runStmt_open step hs.1 h) hloop
    · exact (declare_open (f := fr.enter) x).trans hl
    · obtain ⟨f₁, hin, rfl⟩ := inScope_eq_ok.mp hb
      have ho : f.enter.Open f₁ := runAll_open body hs.2 hin
      exact ho

theorem runAll_open {h : Host} {fr fr' : Frame} {st st' : Store} : ∀ (ss : List Stmt), Stmt.anyReturn ss = false →
    runAll h ss fr st = .ok ((), fr') st' → fr.Open fr'
  | [], _, hr => by
    cases hr
    exact .refl fr
  | s :: rest, hs, hr => by
    simp only [Stmt.anyReturn, Bool.or_eq_false_iff] at hs
    obtain ⟨fr₁, st₁, hstmt, ⟨-, rfl, -⟩ | ⟨-, hr⟩⟩ := runAll_cons_eq_ok.mp hr
    · exact runStmt_open s hs.1 hstmt
    · exact (runStmt_open s hs.1 hstmt).trans (runAll_open rest hs.2 hr)

end

/-- A call with the right number of arguments ends as the body of the function does. -/
theorem call_apply {p : Source.Program} {rounds left : Nat} {f : Source.FunDecl} {args : List Value} {st : Store}
    (ha : args.length = f.params.length) :
    call p rounds (left + 1) f args st =
      match inScope (runAll ⟨p, f.name, call p rounds left, rounds⟩ f.body) (openFrame f args) st with
      | .ok (_, fr) st' =>
        if fr.returned then .ok fr.result st'
        else if f.ret = .void then .ok .null st'
        else .error (.fault ⟨.missingReturn, f.name, .nothing⟩) st'
      | .error e st' => .error e st' := by
  rw [call, if_neg (by simp [ha]), Exec.bind_apply, StateT.run]
  cases inScope (runAll ⟨p, f.name, call p rounds left, rounds⟩ f.body) (openFrame f args) st with
  | error e st' => rfl
  | ok r st' =>
    dsimp only
    split
    · rfl
    · split <;> rfl

end WhileStack.Eval
