import WhileStack.Proofs.Lower.Calls
import WhileStack.Proofs.Lower.Retyped
import WhileStack.Proofs.Machine.Twin
import WhileStack.Proofs.Simulation.Run
import WhileStack.Proofs.Slots

/-! Runs tell nothing of the argument vector, and nothing of the name and the version of the class. Code has its
receiver in slot 0 and on the stack for the next call, and the entry point has its argument vector there; neither is
looked at. -/
namespace WhileStack
open Source (FunDecl)
open Machine (Code Instr Method Signature)
open Lower

/-- A method makes objects for calls only, and leaves slot 0 alone. -/
private theorem Lower.Emitted.discreet {o : Options} {env : Env} {f : FunDecl} {m : Method} {sig : Signature}
    {code : Code} {s : Symbols} (hcls : env.cls = o.name) (he : Emitted env f m sig code s) : m.Discreet := by
  have hslots := he.slotsKept hcls
  have hcalls := bodyCode_calls he.sig_eq he.body
  obtain ⟨index, hfound⟩ := he.found
  refine ⟨fun n t h => ?_, fun n t h => hslots.receiver n t h, fun n slot t h => ?_, fun n slot h => ?_,
    fun n j d h hd => ?_⟩
  · obtain ⟨a, i, b, rfl, hi, hp⟩ := hfound n _ h
    obtain rfl : i = .new t := by
      cases i <;> first | exact hi.symm | cases hi
    exact (hcalls.made a t b rfl).received rfl hp
  · obtain ⟨k, -, rfl, hpos, -⟩ := hslots.store slot t (Array.mem_of_getElem? h)
    omega
  · obtain ⟨k, rfl, hpos, -⟩ := hslots.clear slot (Array.mem_of_getElem? h)
    omega
  · obtain ⟨a, i, b, rfl, rfl, -⟩ := hfound n j h
    rw [Machine.retarget_dest?] at hd
    obtain ⟨d, -, rfl⟩ := Option.map_eq_some_iff.mp hd
    exact ⟨index d.label, rfl⟩

section
variable {o : Options} {p : Source.Program} {c c' : Machine.Program} {a b : String} {args : List String}

private theorem compiled_discreet (h : compile o p = .ok c) : ∀ m ∈ c.methods, m.Discreet := by
  obtain ⟨env, hcls, -, hm⟩ := compile_emits h
  intro m hmem
  obtain ⟨f, -, sig, code, symbols, he⟩ := Machine.exists_of_forall₂ hm.flip hmem
  exact he.discreet hcls

/-- A run that goes on from a state it can come to is followed by its twin to the end. -/
private theorem runFrom_twins (h : compile o p = .ok c) (hm' : c'.methods = c.methods.map (Method.reclass a b))
    {s t : Machine.State} (hs : Simulation.Reachable c args s) (ht : s.Twins a b t) (budget : Nat) :
    Machine.runFrom c' budget t = Machine.runFrom c budget s ∧
      ∀ out, Machine.runFrom c budget s = some out → out.stop = none ∨ ∃ e, out.stop = some (.fault e) := by
  induction budget generalizing s t with
  | zero => simp [Machine.runFrom]
  | succ budget ih =>
    have hnext := Machine.step_twins (compiled_discreet h) hm' ht
    obtain ⟨u, hu, hl⟩ := hs.agrees h 1
    unfold Machine.runFrom
    -- a state that the run comes to is not stopped for its code, where twins could part
    rcases hl.next hu with ⟨st, hstep⟩ | ⟨st, e, hstep⟩ | ⟨s', -, hstep, -⟩
    · rw [hstep] at hnext ⊢
      rw [show Machine.step c' t = _ from hnext]
      exact ⟨rfl, fun out ho => by cases ho; exact .inl rfl⟩
    · rw [hstep] at hnext ⊢
      rw [show Machine.step c' t = _ from hnext]
      exact ⟨rfl, fun out ho => by cases ho; exact .inr ⟨e, rfl⟩⟩
    · rw [hstep] at hnext ⊢
      obtain ⟨t', hstep', ht'⟩ := hnext
      rw [hstep']
      exact ih (hs.step hstep) ht'

/-- The class and the argument vector make no difference to a run: not to its output, nor to its steps or its end. -/
theorem class_and_args_irrelevant (h : compile o p = .ok c) (name : String) (version : Version) :
    ∃ c', compile { o with name := name, version := version } p = .ok c' ∧
      ∀ budget args args', Machine.run c' budget args' = Machine.run c budget args ∧
        ∀ out, Machine.run c budget args = some out →
          out.stop = none ∨ (∃ e, out.stop = some (.fault e)) ∨ out.stop = some .noEntry := by
  obtain ⟨c', hc', -, hm⟩ := (Retyped.refl p).compile h { o with name := name, version := version }
  have hm' := hm (map_retype_id p.functions).symm
  refine ⟨c', hc', fun budget args args' => ?_⟩
  have hstart := Machine.start_twins (compiled_discreet h) hm' args args'
  unfold Machine.run
  cases hs : Machine.start c args with
  | error e =>
    rw [hs] at hstart
    rw [hstart]
    refine ⟨rfl, fun out ho => .inr (.inr ?_)⟩
    cases ho
    obtain ⟨env, -, hc⟩ := compile_eq_ok h
    rcases hc.entry with ⟨-, hn⟩ | ⟨f, -, -, hf, -⟩
    · simp_all [Machine.start]
    · obtain ⟨s, -, hok, -⟩ := Simulation.compiled_lasts h hf args
      cases hs.symm.trans hok
  | ok s =>
    rw [hs] at hstart
    obtain ⟨t, ht, htwins⟩ := hstart
    rw [ht]
    obtain ⟨hrun, hend⟩ := runFrom_twins h hm' (.start hs) htwins budget
    exact ⟨hrun, fun out ho => (hend out ho).imp_right .inl⟩

end

/-- One function calls another, which divides by zero the second time. -/
private def shares : Source.Program :=
  let number (n : Int) : Source.Expr := .const ⟨.int, .unknown⟩ (.int n)
  let n : Source.Expr := .var ⟨.int, .unknown⟩ "n"
  let call (f : String) (e : Source.Expr) : Source.Expr := .call ⟨.int, .unknown⟩ f [e]
  ⟨[.fn ⟨.unknown, "main", [], .void,
      [.print .unknown (call "share" (number 2)), .print .unknown (call "share" (number 0))], true⟩,
    .fn ⟨.unknown, "share", [("n", .int)], .int, [.ret .unknown (some (call "part" n))], false⟩,
    .fn ⟨.unknown, "part", [("n", .int)], .int, [.ret .unknown (some (.binary ⟨.int, .unknown⟩ .div (number 6) n))], false⟩]⟩

theorem shares_run_alike : ∃ c c', compile (.standard "Q") shares = .ok c ∧
    compile ⟨"R", Version.ofParts 52 0 0, true⟩ shares = .ok c' ∧ c'.methods ≠ c.methods ∧
    Machine.run c' 21 ["x", "y"] = some ⟨"3\n", 21, some (.fault ⟨.divisionByZero, "part", .nothing⟩)⟩ := by
  have h : (compile (.standard "Q") shares).toOption.map
      (fun c => (c.methods.any fun m => .new (.object "R") ∈ m.code, Machine.run c 21 [])) =
      some (false, some ⟨"3\n", 21, some (.fault ⟨.divisionByZero, "part", .nothing⟩)⟩) := by decide +kernel
  have h' : (compile ⟨"R", Version.ofParts 52 0 0, true⟩ shares).toOption.map
      (fun c => c.methods.any fun m => .new (.object "R") ∈ m.code) = some true := by decide +kernel
  obtain ⟨c, hc, hm⟩ := Partial.eq_ok_of_toOption_map h
  obtain ⟨c', hc', hm'⟩ := Partial.eq_ok_of_toOption_map h'
  obtain ⟨hclass, hrun⟩ := Prod.mk.inj hm
  obtain ⟨c'', hc'', hruns⟩ := class_and_args_irrelevant hc "R" (Version.ofParts 52 0 0)
  cases hc'.symm.trans hc''
  refine ⟨c, c', hc, hc', fun he => ?_, ((hruns 21 [] ["x", "y"]).1).trans hrun⟩
  rw [he, hclass] at hm'
  cases hm'

end WhileStack
