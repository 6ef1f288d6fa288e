import WhileStack.Proofs.Lower.Compiled
import WhileStack.Proofs.Simulation.Block

/-! Calls of compiled functions. The machine runs the method of a function to a return with the result, and gives the
result to the caller; how many activations may be opened is counted alike. -/
namespace WhileStack.Simulation
open Source (FunDecl Stmt)
open Machine (Program Method Signature Code Ty realCount)
open Lower (Env Symbols Implements Compiled declareParams initialSymbols signatureOf closing)
open OnTrees (State Operand activate Step)
open OnTrees.Operand (own)
open Reference (Frame runAll inScope openFrame endsOpen)

section
variable {env : Env} {f : FunDecl} {sig : Signature} {s s' : Symbols} {L args : List Tree} {fr : Frame}

private theorem params_scoped {seen : List String} {ps : List (String × Ty)} (h : declareParams f seen ps s = .ok s')
    (hv : s.Valid) (ha : List.Forall₂ HasTy args (ps.map Prod.snd))
    (hL : ∀ i t, args[i]? = some t → L[s.size + i]? = some t) (sc : Scoped L s fr.scopes) :
    s'.size = s.size + args.length ∧
      ∃ scopes, Scoped L s' scopes ∧
        ((ps.map Prod.fst).zip args).foldl (fun fr p => fr.declare p.1 p.2) fr = { fr with scopes := scopes } := by
  induction ps generalizing seen s args fr with
  | nil =>
    cases h
    cases ha
    exact ⟨rfl, fr.scopes, sc, rfl⟩
  | cons q ps ih =>
    obtain ⟨name, ty⟩ := q
    obtain ⟨x, xs, hx, hxs, rfl⟩ := List.forall₂_cons_right_iff.mp ha
    simp only [declareParams] at h
    split at h
    · cases h
    · split at h
      · cases h
      · rename_i l s₁ hd
        obtain ⟨-, hl, hs₁⟩ := Symbols.declare_eq_ok hd
        have hsize : s₁.size = s.size + 1 := by
          rw [hs₁]
          rfl
        have h0 : L[s.size]? = some x := hL 0 x rfl
        have hlt := (List.getElem?_eq_some_iff.mp h0).1
        have hsc := sc.declare hv hd (by omega) (.inr hx)
        have hset : L.set l.slot x = L := by
          rw [hl]
          obtain ⟨_, rfl⟩ := List.getElem?_eq_some_iff.mp h0
          exact List.set_getElem_self hlt
        rw [hset] at hsc
        obtain ⟨hsz, scopes, hsc', hfold⟩ := ih h (hv.declare hd) hxs (fun i t hi => by
          rw [hsize, Nat.add_assoc, Nat.add_comm 1 i]
          exact hL (i + 1) t (by simpa using hi)) hsc
        refine ⟨by simp only [List.length_cons]; omega, scopes, hsc', ?_⟩
        simp only [List.map_cons, List.zip_cons_cons, List.foldl_cons, hfold]
        unfold Frame.declare
        split <;> rfl

/-- The locals of a new activation are what the body of the function expects. -/
private theorem initial_scoped {types : List Ty} (first : Tree) {m : Method} (hi : initialSymbols env f sig = .ok s)
    (hp : f.params.length = types.length) (ht : sig.params.drop (sig.params.length - f.params.length) = types)
    (ha : List.Forall₂ HasTy args types) :
    s.size = args.length + 1 ∧ ∃ scopes, Scoped (activate m (first :: args)).locals s scopes ∧
      openFrame f args = ⟨scopes, false, .null⟩ := by
  obtain ⟨l, hd⟩ := Lower.initialSymbols_eq_ok hi
  rw [ht] at hd
  have hfst : ((f.params.map Prod.fst).zip types).map Prod.fst = f.params.map Prod.fst :=
    List.map_fst_zip (by simp [hp])
  have hsnd : ((f.params.map Prod.fst).zip types).map Prod.snd = types := List.map_snd_zip (by simp [hp])
  have hL : ∀ i t, args[i]? = some t →
      (activate m (first :: args)).locals[(⟨[], [], [l]⟩ : Symbols).size + i]? = some t := by
    intro i t hi
    have hs : (⟨[], [], [l]⟩ : Symbols).size = 1 := rfl
    rw [hs, Nat.add_comm]
    simp only [activate, List.cons_append, List.getElem?_cons_succ]
    rw [List.getElem?_append_left (List.getElem?_eq_some_iff.mp hi).1]
    exact hi
  have hstart : Scoped (activate m (first :: args)).locals ⟨[], [], [l]⟩ (⟨[[]], false, .null⟩ : Frame).scopes :=
    .cons .nil .nil
  obtain ⟨hsize, scopes, hsc, hfold⟩ :=
    params_scoped hd (Lower.reserved_valid l) (by rwa [hsnd]) hL hstart
  rw [hfst] at hfold
  exact ⟨by rw [hsize]; exact Nat.add_comm 1 _, scopes, hsc, hfold⟩

end

section
variable {p : Program} {rounds : Nat} {env : Env} {f : FunDecl} {sig : Signature} {m : Method} {program : Source.Program}

/-- A method stops at a return with the result of the function on the stack. -/
def AtReturn (m : Method) (callers : List OnTrees.Pending) (t : Tree) (o : String) (s : State) : Prop :=
  HasTy t m.sig.ret ∧ ∃ k L n, m.code[n]? = some (.ret m.sig.ret) ∧
    s = ⟨o, k, ⟨m, L, pushed m.sig.ret t [], (n : Nat)⟩, callers⟩

private theorem eq_void {t : Ty} (h : t.isVoid = true) : t = .void := by
  cases t <;> first | rfl | cases h

/-- The machine runs a method from its start to a return. -/
theorem body_meets {left : Nat} (callers : List OnTrees.Pending) (first : Tree) {args : List Tree}
    (hc : Compiled env program p) (hi : Implements env f sig m) (hsig : signatureOf env f = .ok sig)
    (calls : Calls p rounds callers.length env program (Reference.call .lowered program rounds left))
    (hargs : List.Forall₂ HasTy args (sig.params.drop (sig.params.length - f.params.length)))
    (hfirst : sig.isStatic = false → ∃ id cls, first = .leaf (.object id cls)) (o : String) (k : Nat) :
    args.length < m.maxLocals ∧
      Meets p rounds ⟨o, k, activate m (first :: args), callers⟩
        (Reference.call .lowered program rounds (left + 1) f args o) (AtReturn m callers) := by
  obtain ⟨types, htypes, hret, hparams, -, -⟩ := Lower.signatureOf_eq_ok hsig
  obtain ⟨index, s₀, b, s, hs₀, hb, hmax, hplaced⟩ := hi.code
  have hlen := htypes.length_eq
  have hdrop : sig.params.drop (sig.params.length - f.params.length) = types := by
    rw [hparams]
    split <;> simp [hlen]
  rw [hdrop] at hargs
  obtain ⟨hsize, scopes, hsc, hopen⟩ := initial_scoped (m := m) first hs₀ hlen hdrop hargs
  have hgrow : s₀.size ≤ s.symbols.size := hb.grows.size_le
  have hlt : args.length < m.maxLocals := by omega
  refine ⟨hlt, ?_⟩
  let site : Site := ⟨m, index, callers⟩
  let host : Lower.Host := ⟨env, f.name, sig⟩
  let w : Reference.Host := ⟨.lowered, program, f.name, Reference.call .lowered program rounds left, rounds⟩
  have hosted : Hosted p rounds site host w := ⟨rfl, rfl, hc.aliases_eq.symm, hi.name_eq.symm, calls⟩
  have st : Stands site host s₀ (openFrame f args) (activate m (first :: args)).locals := by
    rw [hopen]
    refine ⟨hsc, rfl, rfl, ?_, fun hstatic => ?_⟩
    · have hm : site.method.maxLocals = m.maxLocals := rfl
      simp only [activate, List.length_append, List.length_cons, List.length_replicate]
      omega
    · obtain ⟨id, cls, rfl⟩ := hfirst hstatic
      exact ⟨id, cls, rfl⟩
  have hplaced : site.Has 0 (b ++ closing f sig) := hplaced
  obtain ⟨hpb, hpc⟩ := hplaced.append
  have hrun := inScope_meets hb.grows (block_meets hosted (Lower.initialSymbols_valid hs₀).enter (Nat.le_of_eq hmax.symm)
    (openFrame f args).enter o k _ 0 st.enter hpb hb)
  have hall := hrun.also (P := fun r => Stmt.allReturn f.body = true → r.2.returned = true) fun r o' hr hret => by
    obtain ⟨fr, hbody, hfr⟩ := Reference.inScope_eq_ok (g := r.2) hr
    have := Reference.returned_of_allReturn _ hret hbody
    rw [hfr]
    exact this
  rw [Reference.call, if_neg (by simp [hlen, hargs.length_eq])]
  refine hall.bind ?_
  rintro r o s ⟨hclosed, hs⟩
  cases hs with
  | @returns fr L o k n hr ht hn =>
    dsimp only
    rw [if_pos hr]
    exact .ok ⟨hi.sig_eq ▸ ht, k, L, n, hi.sig_eq ▸ hn, by rw [hi.sig_eq]⟩
  | @runs fr L o k st =>
    have hnot : Stmt.allReturn f.body = false := by
      cases hall : Stmt.allReturn f.body with
      | true => exact absurd (hclosed hall) (by simp [st.returned_eq])
      | false => rfl
    have hends : endsOpen .lowered program f = sig.ret.isVoid := by
      simp only [endsOpen, ← hc.aliases_eq, hret]
    dsimp only
    rw [if_neg (by simp [st.returned_eq]), hends]
    simp only [closing, hnot, Bool.false_eq_true, if_false] at hpc
    cases hv : sig.ret.isVoid with
    | true =>
      rw [hv, if_pos rfl] at hpc
      have hvoid : m.sig.ret = .void := hi.sig_eq ▸ eq_void hv
      refine .ok ⟨by rw [hvoid]; exact .void, k, L, 0 + realCount b, ?_, ?_⟩
      · rw [hvoid]
        exact hpc.1
      · rw [hvoid]
        rfl
    | false =>
      rw [hv, if_neg (by simp)] at hpc
      exact site.fails hpc.1 .unreachable ⟨rfl, hi.name_eq.symm, fun _ => rfl⟩

/-- A result goes from a return to the caller. -/
private theorem return_meets {site : Site} {L : List Tree} {S : List Operand} {n : Nat} {t : Tree} {o : String} {s : State}
    (h : AtReturn m (⟨⟨site.method, L, S, ((n + 1 : Nat) : Int)⟩, m.sig⟩ :: site.callers) t o s) :
    Meets p rounds s (.ok t o) (Yields site L S (n + 1) m.sig.ret) := by
  obtain ⟨ht, k, L', n', hi, rfl⟩ := h
  let callee : Site := ⟨m, fun _ => 0, ⟨⟨site.method, L, S, ((n + 1 : Nat) : Int)⟩, m.sig⟩ :: site.callers⟩
  have hr := Site.instr?_eq (L := L') (S := pushed m.sig.ret t []) hi
  cases hv : m.sig.ret.isVoid with
  | true =>
    refine .step (.giveNothing hr (by simp [Ty.width, hv]) hv) (.ok ⟨ht, k, ?_⟩)
    simp [pushed, hv]
  | false =>
    refine .step (.give hr hv (pushed_eq hv t []) (ht.ne_null hv) hv) (.ok ⟨ht, k, ?_⟩)
    simp [pushed, hv]

/-- The machine follows every call of a compiled function. -/
theorem call_meets (hc : Compiled env program p) (left depth : Nat) (hd : left + depth + 1 = maxCallDepth) :
    Calls p rounds depth env program (Reference.call .lowered program rounds left) := by
  induction left generalizing depth with
  | zero =>
    intro name sig hs hstatic
    obtain ⟨f, m, hf, hm, -, hi⟩ := hc.method hs
    refine ⟨f, hf, fun site args id cls o k L S n hdepth hcode hargs => ?_⟩
    refine .fault (.tooDeep (Site.instr?_eq hcode) rfl hargs.length_eq hm (by omega)) ⟨rfl, hi.name_eq.symm, fun _ => ?_⟩
    exact congrArg FaultDetail.depth (by omega)
  | succ left ih =>
    intro name sig hs hstatic
    obtain ⟨f, m, hf, hm, hsig, hi⟩ := hc.method hs
    refine ⟨f, hf, fun site args id cls o k L S n hdepth hcode hargs => ?_⟩
    obtain ⟨types, htypes, -, hparams, hentry, -⟩ := Lower.signatureOf_eq_ok hsig
    have hlen : sig.params.length = f.params.length := by
      simp [hparams, ← hentry, hstatic, htypes.length_eq]
    obtain ⟨hlt, hbody⟩ := body_meets (⟨⟨site.method, L, S, ((n + 1 : Nat) : Int)⟩, sig⟩ :: site.callers)
      (.leaf (.object id cls)) hc hi hsig (ih (site.callers.length + 1) (by omega)) (by simpa [hlen] using hargs)
      (fun _ => ⟨id, cls, rfl⟩) o k
    refine .step (.call (Site.instr?_eq hcode) rfl hargs.length_eq hm (by omega) hlt) (hbody.onward fun t o s hs => ?_)
    rw [← hi.sig_eq] at hs ⊢
    exact return_meets hs

end
end WhileStack.Simulation
