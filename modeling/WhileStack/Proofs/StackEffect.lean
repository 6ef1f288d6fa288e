import WhileStack.Proofs.Lower.Chunks
import WhileStack.Proofs.Machine.Closed
import WhileStack.Proofs.Machine.Passage

/-! What lowered code does to the stack, in whatever state of lowering and at whatever depth it is produced. -/
namespace WhileStack.Lower
open Source (Expr Stmt)
open Machine

section
variable {n n' : Nat} {l r c : Code} {t : Machine.Ty}

private theorem compareChunk_forward (cond : Cond) : Forward (compareChunk cond n) :=
  .branch rfl (by simp [Dest.toLabel, marks]) <| .next rfl rfl <| .branch rfl (by simp [Dest.toLabel, marks]) <|
    .next rfl rfl <| .next rfl rfl <| .next rfl rfl .nil

private theorem logicChunk_forward {isOr : Bool} (hl : Forward l) (hr : Forward r) :
    Forward (logicChunk isOr n l r) := by
  have htail : Forward [.goto (.toLabel (label n 2)), .mark (label n 1), .ldc (.bool isOr), .mark (label n 2)] :=
    .branch rfl (by simp [Dest.toLabel, marks]) <| .next rfl rfl <| .next rfl rfl <| .next rfl rfl .nil
  have hd : (logicBranch isOr (.toLabel (label n 1))).dest? = some (.toLabel (label n 1)) := by cases isOr <;> rfl
  have hrest : Forward (logicBranch isOr (.toLabel (label n 1)) ::
      (r ++ [.goto (.toLabel (label n 2)), .mark (label n 1), .ldc (.bool isOr), .mark (label n 2)])) :=
    .branch hd (by simp [Dest.toLabel, marks]) (hr.append htail)
  simpa [logicChunk] using hl.append hrest

private theorem receiver_forward (v : View) : Forward [receiverCode v] := by
  unfold receiverCode
  split <;> exact .one rfl rfl

private theorem LowersEquality.forward {isNe : Bool} (h : LowersEquality isNe t n c n') : Forward c := by
  cases h with
  | structural => cases isNe <;> exact .next rfl rfl (by first | exact .nil | exact .next rfl rfl (.one rfl rfl))
  | numeric => exact compareChunk_forward _

mutual

/-- Control goes through the code of an expression from front to end. -/
theorem LowersExpr.forward {v n e c t n'} : LowersExpr v n e c t n' → Forward c
  | .const _ _ => .one rfl rfl
  | .var (l := l) _ _ => by
    refine .next rfl rfl ?_
    cases l.ty.isComposite
    · exact .nil
    · exact .one rfl rfl
  | .logic _ hl hr _ => logicChunk_forward hl.forward hr.forward
  | .equality _ hl _ hr hc _ => (hl.forward.append hr.forward).append hc.forward
  | .append _ hl hr _ | .arith _ hl hr _ => (hl.forward.append hr.forward).append (.one rfl rfl)
  | .order _ hl hr _ => (hl.forward.append hr.forward).append (compareChunk_forward _)
  | .not h _ => h.forward.append (.next rfl rfl (.one rfl rfl))
  | .neg h _ | .length _ h _ | .convert h _ _ _ => h.forward.append (.one rfl rfl)
  | .keep h _ _ => h.forward
  | .call _ _ ha _ => ((receiver_forward v).append ha.forward).append (.one rfl rfl)
  | .index hs hp _ => (hs.forward.append hp.forward).append (.one rfl rfl)
  | .list _ ha | .record _ _ ha => ha.forward.append (.one rfl rfl)
  | .field hs _ _ => hs.forward.append (.one rfl rfl)

theorem LowersArgs.forward {v n ts es c n'} : LowersArgs v n ts es c n' → Forward c
  | .nil => .nil
  | .cons h _ ha => h.forward.append ha.forward

end

variable {v : View} {e : Expr}

/-- Only a call has no value. -/
private theorem LowersExpr.call_of_void (hv : v.symbols.HoldsValues) (h : LowersExpr v n e c t n')
    (ht : t.isVoid = true) :
    ∃ a f args sig, e = .call a f args ∧ v.env.signatures.lookup f = some sig ∧ sig.ret = .void := by
  have hvalue {u : Machine.Ty} (hu : u.isValue = true) (hvoid : u.isVoid = true) : False := by
    rw [Machine.Ty.isVoid_of_isValue hu] at hvoid
    cases hvoid
  cases h with
  | const hk _ => cases hk <;> cases ht
  | var hl _ => exact absurd ht (by simp [hv.value _ (Symbols.mem_of_lookup? hl)])
  | append htext _ _ _ => obtain rfl | ⟨u, rfl⟩ := htext <;> cases ht
  | keep _ hs _ => exact absurd ht (by simp [hs])
  | convert _ _ ha _ => exact (hvalue (valueLayout_isValue ha) ht).elim
  | @call _ _ a f args _ sig hs _ _ _ =>
    refine ⟨a, f, args, sig, rfl, hs, ?_⟩
    cases hret : sig.ret <;> simp_all [Machine.Ty.isVoid]
  | index hs _ _ => exact (hvalue (by simpa only [Machine.Ty.isValue] using hs.isValue rfl) ht).elim
  | field hs hf _ =>
    obtain ⟨j, -, hj⟩ := Machine.Ty.mem_of_findField hf
    have hrecord := hs.isValue rfl
    exact (hvalue (Machine.Ty.isValue_of_mem (by simpa only [Machine.Ty.isValue] using hrecord)
      (List.mem_of_getElem? hj)) ht).elim
  | _ => cases ht

private theorem LowersExpr.width_eq_zero_iff (hv : v.symbols.HoldsValues) (h : LowersExpr v n e c t n') :
    t.width = 0 ↔ ∃ a f args sig, e = .call a f args ∧ v.env.signatures.lookup f = some sig ∧ sig.ret = .void := by
  constructor
  · intro hw
    refine h.call_of_void hv ?_
    cases ht : t.isVoid with
    | true => rfl
    | false => exact absurd hw (by simp [Machine.Ty.width, ht])
  · rintro ⟨a, f, args, sig, rfl, hs, hret⟩
    cases h with
    | call hs' _ _ _ =>
      cases hs.symm.trans hs'
      rw [hret]
      rfl

variable {h : Host} {s s' : State} {stmt : Stmt}

/-- A return makes the code of a statement a body of its own. -/
private theorem Flat.accepted {c : Code} (hf : Flat n n' c) :
    ∃ full m, resolve (c ++ [.ret .void]) = .ok full ∧ maxDepth full.toArray = .ok m := by
  have hret : Flat n' n' [.ret .void] := ⟨.plain rfl rfl, Chunk.leave (t := .void)⟩
  have hcloses : Closes (c ++ [.ret .void]) := ⟨c, .ret .void, [], rfl, rfl, rfl, by simp, by simp⟩
  obtain ⟨full, hr, m, hm⟩ := hcloses.accepted (hf.append hret).labels (hf.append hret).sinks
  exact ⟨full, m, hr, hm⟩

private theorem Flat.walks_end {c : Code} {k : Nat} (hf : Flat n n' c) (hw : Walks c c.length k) : k = 0 := by
  obtain ⟨level, ds, hd⟩ := hf.sinks.exists_deep
  exact hd.walks_end hw

end

/-- Lowering is sound for the stack piece by piece, wherever it has got to. The code of an expression branches to labels
of its own, and from every depth each way of control comes to its end with the width of its type on top of what was there,
which stays untouched; only calls of void functions have no width. The code of a statement branches to labels of its own
too, passes the check with nothing but a return behind it, and has nothing on the stack where control comes to its end. -/
theorem lowering_balanced :
    (∀ (v : View) (n n' : Nat) (e : Expr) (c : Code) (t : Machine.Ty), v.symbols.Built →
      exprCode v e n = .ok ((c, t), n') →
        OwnLabels c ∧ (∀ d, ∃ p, Lands c 0 p ∧ Arrives c d (d + t.width) p d) ∧ t.width ≤ 1 ∧
        (t.width = 0 ↔ ∃ a f args sig, e = .call a f args ∧ v.env.signatures.lookup f = some sig ∧ sig.ret = .void)) ∧
    ∀ (h : Host) (s s' : State) (stmt : Stmt) (c : Code), s.symbols.Built → stmtCode h stmt s = .ok (c, s') →
      OwnLabels c ∧ (∃ full m, resolve (c ++ [.ret .void]) = .ok full ∧ maxDepth full.toArray = .ok m) ∧
      (∀ k, Walks c c.length k → k = 0) ∧ s'.symbols.Built := by
  refine ⟨fun v n n' e c t hb he => ?_, fun h s s' stmt c hb hs => ?_⟩
  · have hl := lowersExpr e he
    have hc := hl.chunk hb.holdsValues
    obtain ⟨level, ds, hd⟩ := (hc.sinks 0).exists_deep
    simp only [Nat.zero_add] at hd
    refine ⟨hc.labels.own, hd.arrives hl.forward hc.labels.nodup, ?_, hl.width_eq_zero_iff hb.holdsValues⟩
    unfold Machine.Ty.width
    split <;> omega
  · have hl := lowersStmt stmt hs
    have hf := hl.flat hb.holdsValues
    exact ⟨hf.labels.own, hf.accepted, fun k hw => hf.walks_end hw, hl.keeps .built hb⟩

/-- A function with an `int` result, in the middle of its lowering, and the signature of one that it calls. -/
private def host : Host :=
  ⟨⟨"Q", [], [("g", ⟨"g", [.boolean], .void, false⟩)], true⟩, "f", ⟨"f", [], .int, false⟩⟩

private def both : Expr :=
  .binary ⟨.bool, .unknown⟩ .and (.const ⟨.bool, .unknown⟩ (.bool true)) (.const ⟨.bool, .unknown⟩ (.bool false))

/-- A call without a value, whose argument control comes to in two ways. -/
private def told : Expr := .call ⟨.void, .unknown⟩ "g" [both]

/-- A loop that is left in its first round, so that control does not get to the jump back. -/
private def once : Stmt :=
  .whileDo .unknown both [.ret .unknown (some (.const ⟨.int, .unknown⟩ (.int 1)))]

theorem once_balanced :
    (∃ c n', exprCode ⟨host.env, .empty, false⟩ told 4 = .ok ((c, .void), n') ∧
      c = [.load 0 (.object "Q"), .ldc (.bool true), .ifeq (.toLabel 5), .ldc (.bool false), .goto (.toLabel 6), .mark 5,
        .ldc (.bool false), .mark 6, .call ⟨"g", [.boolean], .void, false⟩] ∧
      OwnLabels c ∧ ∀ d, ∃ p, Lands c 0 p ∧ Arrives c d d p d) ∧
    ∃ c s', stmtCode host once ⟨4, .empty⟩ = .ok (c, s') ∧
      c = [.mark 5, .ldc (.bool true), .ifeq (.toLabel 7), .ldc (.bool false), .goto (.toLabel 8), .mark 7,
        .ldc (.bool false), .mark 8, .ifeq (.toLabel 6), .ldc (.int 1), .ret .int, .goto (.toLabel 5), .mark 6] ∧
      OwnLabels c ∧ (∃ full m, resolve (c ++ [.ret .void]) = .ok full ∧ maxDepth full.toArray = .ok m) ∧
      ∀ k, Walks c c.length k → k = 0 := by
  constructor
  · obtain ⟨⟨⟨c, t⟩, n'⟩, hok⟩ : ∃ r, exprCode ⟨host.env, .empty, false⟩ told 4 = .ok r := ⟨_, rfl⟩
    have hcode := Option.some.inj (congrArg (fun r => r.toOption.map Prod.fst) hok)
    obtain ⟨rfl, rfl⟩ := Prod.mk.inj hcode
    obtain ⟨hlabels, hall, -, -⟩ := lowering_balanced.1 _ _ _ _ _ _ .empty hok
    exact ⟨_, n', hok, rfl, hlabels, hall⟩
  · obtain ⟨⟨c, s'⟩, hok⟩ : ∃ r, stmtCode host once ⟨4, .empty⟩ = .ok r := ⟨_, rfl⟩
    obtain ⟨hlabels, hcheck, hend, -⟩ := lowering_balanced.2 _ _ _ _ _ .empty hok
    refine ⟨c, s', hok, ?_, hlabels, hcheck, hend⟩
    have hcode := congrArg (fun r => r.toOption.map Prod.fst) hok
    exact (Option.some.inj hcode).symm

end WhileStack.Lower
