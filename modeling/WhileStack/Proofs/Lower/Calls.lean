import WhileStack.Proofs.Lower.Slots

/-! Calls in lowered code. They name functions that can be called, and a new object is made for a call only. -/
namespace WhileStack.Lower
open Source (Expr Stmt VarDecl)
open Machine (Code Instr Signature)

/-- How code calls functions. -/
structure Calls (env : Env) (c : Code) : Prop where
  named : ∀ sig, .call sig ∈ c → sig.isStatic = false ∧ ∃ name, env.signatures.lookup name = some sig
  made : ∀ a t b, c = a ++ .new t :: b → CallFollows b

/-- Instructions that call or make an object. -/
def callsOrMakes : Instr → Bool
  | .call _ | .new _ => true
  | _ => false

section
variable {env : Env} {a b c : Code}

theorem Calls.append (ha : Calls env a) (hb : Calls env b) : Calls env (a ++ b) := by
  refine ⟨fun sig hs => (List.mem_append.mp hs).elim (ha.named sig) (hb.named sig), fun x t y h => ?_⟩
  rcases List.append_eq_append_iff.mp h with ⟨x', rfl, hb'⟩ | ⟨a', rfl, hb'⟩
  · exact hb.made x' t y hb'
  · cases a' with
    | nil => exact hb.made [] t y hb'.symm
    | cons i a' =>
      cases hb'
      exact (ha.made x t a' rfl).append b

theorem Calls.plain (h : c.all (fun i => !callsOrMakes i) = true) : Calls env c := by
  constructor
  · intro sig hs
    simpa [callsOrMakes] using List.all_eq_true.mp h _ hs
  · rintro x t y rfl
    simp [callsOrMakes] at h

/-- An object, the arguments and the call. -/
theorem Calls.call {v : View} {args : Code} {sig : Signature} {name : String} {n n' : Nat}
    (hname : v.env.signatures.lookup name = some sig) (hst : sig.isStatic = false) (ha : Calls v.env args)
    (hc : Chunk n n' 0 sig.params.length args) (hs : ∀ i ∈ args, i.fallsThrough = true ∨ i.isBranch = true) :
    Calls v.env (receiverCode v :: args ++ [.call sig]) := by
  have hcall : Calls v.env [.call sig] := by
    refine ⟨fun s h => ?_, fun x t y h => ?_⟩
    · cases List.mem_singleton.mp h
      exact ⟨hst, name, hname⟩
    · have hm : Instr.new t ∈ [Instr.call sig] := by rw [h]; simp
      cases List.mem_singleton.mp hm
  have htail := ha.append hcall
  refine ⟨fun s h => ?_, fun x t y h => ?_⟩
  · rcases List.mem_cons.mp h with h | h
    · unfold receiverCode at h
      split at h <;> cases h
    · exact htail.named s h
  · cases x with
    | nil =>
      cases (List.cons.inj h).2
      exact ⟨args, sig, [], n, n', rfl, hc, hs, hst⟩
    | cons i x => exact htail.made x t y (List.cons.inj h).2

theorem ifChunk_calls {n : Nat} {returns : Bool} (hc : Calls env c) (ha : Calls env a) (hb : Calls env b) :
    Calls env (ifChunk n c a returns b) := by
  have hjump : Calls env (if returns then [] else [.goto (.toLabel (label n 2))]) := by
    split <;> exact .plain rfl
  exact (((((hc.append (.plain rfl)).append ha).append hjump).append (.plain rfl)).append hb).append (.plain rfl)

theorem loopChunk_calls {n : Nat} (hc : Calls env c) (ha : Calls env a) (hb : Calls env b) :
    Calls env (loopChunk n c a b) := by
  have hmark : Calls env [.mark (label n 1)] := .plain rfl
  exact ((((hmark.append hc).append (.plain rfl)).append ha).append hb).append (.plain rfl)

end

section
variable {v : View} {h : Host} {n n' : Nat} {e : Expr} {c : Code} {t : Machine.Ty} {s s' : State}

mutual

theorem LowersExpr.calls {v n e c t n'} (hv : v.Ready) : LowersExpr v n e c t n' → Calls v.env c
  | .const _ _ => .plain rfl
  | .var (l := l) _ _ => by
    have hcopy : Calls v.env (if l.ty.isComposite then [.clone l.ty] else []) := by split <;> exact .plain rfl
    exact (Calls.plain (c := [.load l.slot l.ty]) rfl).append hcopy
  | @LowersExpr.logic _ _ _ _ _ _ isOr _ _ _ _ _ hl hr _ => by
    refine (((hl.calls hv).append ?_).append (hr.calls hv)).append (.plain rfl)
    cases isOr <;> exact .plain rfl
  | @LowersExpr.equality _ _ _ _ _ _ _ isNe _ _ _ _ _ _ _ hl _ hr hc _ => by
    refine ((hl.calls hv).append (hr.calls hv)).append ?_
    cases hc <;> cases isNe <;> exact .plain rfl
  | .append _ hl hr _ | .arith _ hl hr _ | .order _ hl hr _ => ((hl.calls hv).append (hr.calls hv)).append (.plain rfl)
  | .not h _ | .neg h _ | .length _ h _ | .convert h _ _ _ => (h.calls hv).append (.plain rfl)
  | .keep h _ _ => h.calls hv
  | .call hs hsig ha _ => .call hs hsig (ha.calls hv) (ha.chunk hv.valid.toHoldsValues) (ha.reads hv).stays
  | .index hs hp _ => ((hs.calls hv).append (hp.calls hv)).append (.plain rfl)
  | .list _ ha | .record _ _ ha => (ha.calls hv).append (.plain rfl)
  | .field hs _ _ => (hs.calls hv).append (.plain rfl)

theorem LowersArgs.calls {v n ts es c n'} (hv : v.Ready) : LowersArgs v n ts es c n' → Calls v.env c
  | .nil => .plain rfl
  | .cons h _ ha => (h.calls hv).append (ha.calls hv)

end

theorem LowersTarget.calls (hv : v.Ready) (h : LowersTarget v n e c t n') : Calls v.env c := by
  induction h with
  | var _ _ => exact .plain rfl
  | index _ hp _ ih => exact (ih.append (hp.calls hv)).append (.plain rfl)
  | field _ _ _ ih => exact ih.append (.plain rfl)
  | value _ he _ => exact he.calls hv

theorem LowersAssign.calls {target : Source.Target} (hv : v.Ready) (h : LowersAssign v n e target c n') :
    Calls v.env c := by
  cases h with
  | var he _ _ => exact (he.calls hv).append (.plain rfl)
  | index he _ hs hp => exact (((he.calls hv).append (hs.calls hv)).append (hp.calls hv)).append (.plain rfl)
  | field he _ hs _ => exact ((he.calls hv).append (hs.calls hv)).append (.plain rfl)

theorem LowersDecl.calls {d : VarDecl} (hr : (h.view s.symbols).Ready) (hd : LowersDecl h s d c s') : Calls h.env c := by
  cases hd with
  | init _ _ he _ _ => exact (he.calls hr).append (.plain rfl)
  | unset _ _ _ => exact .plain rfl

mutual

theorem LowersStmt.calls {h s stmt c s'} (hr : (h.view s.symbols).Ready) : LowersStmt h s stmt c s' → Calls h.env c
  | .decl hd => hd.calls hr
  | .assign ha => ha.calls hr
  | .print he _ | .ret he _ => (he.calls hr).append (.plain rfl)
  | .leave _ => .plain rfl
  | .effect (t := t) he => by
    refine (he.calls hr).append ?_
    split <;> exact .plain rfl
  | .ifElse hc hy hz => ifChunk_calls (hc.calls hr) (hy.calls hr.enter) (hz.calls (hy.ready hr.enter).exit.enter)
  | .whileDo hc hb => loopChunk_calls (hc.calls hr) (hb.calls hr.enter) (.plain rfl)
  | .forDo hi hc hb hu =>
    have hri := hi.ready hr.enter
    (hi.calls hr.enter).append
      (loopChunk_calls (hc.calls hri) (hb.calls hri.enter) (hu.calls (hb.ready hri.enter).exit))

theorem LowersBlock.calls {h s stmts c s'} (hr : (h.view s.symbols).Ready) : LowersBlock h s stmts c s' → Calls h.env c
  | .nil => .plain rfl
  | .cons hs hb => (hs.calls hr).append (hb.calls (hs.ready hr))

end

end

/-- The calls of a function. -/
theorem bodyCode_calls {env : Env} {f : Source.FunDecl} {sig : Signature} {code : Code} {s : Symbols}
    (hsig : signatureOf env f = .ok sig) (h : bodyCode env f sig = .ok (code, s)) : Calls env code := by
  obtain ⟨s₀, b, s₁, hs₀, hblock, rfl, rfl⟩ := bodyCode_eq_ok h
  have hclosing : Calls env (closing f sig) := .plain (by unfold closing; split <;> (try split) <;> rfl)
  exact ((lowersBlock f.body hblock).calls (initialSymbols_ready hsig hs₀)).append hclosing

end WhileStack.Lower
