import WhileStack.Machine.Run
import WhileStack.Proofs.Machine.Mirror
import WhileStack.Proofs.Machine.Receiver
import WhileStack.Proofs.Machine.Reclass

/-! One program under two names of its class, side by side. The two runs differ in slot 0 and in receivers that wait on
the stack for their call, and nothing reads either of them. -/
namespace WhileStack

def Value.isObject : Value → Bool
  | .object _ _ => true
  | _ => false

namespace Machine

/-- Objects are made, and slot 0 is used, for receivers only. Branches go to indices. -/
structure Method.Discreet (m : Method) : Prop where
  made : ∀ (n : Nat) t, m.code[n]? = some (.new t) → Received m.code n
  loaded : ∀ (n : Nat) t, m.code[n]? = some (.load 0 t) → m.isEntry = false ∧ Received m.code n
  stored : ∀ (n : Nat) (slot : Int) t, m.code[n]? = some (.store slot t) → slot ≠ 0
  cleared : ∀ (n : Nat) (slot : Int), m.code[n]? = some (.clear slot) → slot ≠ 0
  targets : ∀ (n : Nat) i d, m.code[n]? = some i → i.dest? = some d → ∃ t : Nat, d.target = t

/-- In front of `n`, what is below `h` values is a receiver that waits for its call. -/
def Awaited (code : Array Instr) (n h : Nat) : Prop := ∃ i, Received code i ∧ Above code i n h

/-- Stacks that differ in receivers only. With `extra` values more they stand in front of `n`. -/
structure StacksAlike (code : Array Instr) (n extra : Nat) (xs ys : List Value) : Prop where
  length_eq : ys.length = xs.length
  same : ∀ (h : Nat) v w, xs[h]? = some v → ys[h]? = some w →
    v = w ∨ (v.isObject = true ∧ w.isObject = true ∧ Awaited code n (h + extra))

section
variable {code : Array Instr} {n k extra h : Nat} {i : Instr} {xs ys vs : List Value}

/-- What is taken off the stack is not awaited, but for the receiver of a call. -/
private theorem Awaited.call_of_lt (ha : Awaited code n h) (hi : code[n]? = some i) (hh : h < i.pops) :
    ∃ sig, i = .call sig ∧ h = sig.params.length := by
  obtain ⟨m, hr, habove⟩ := ha
  obtain ⟨j, hj, ⟨hle, -⟩ | ⟨sig, hcall, -, hlen⟩⟩ := hr n h habove
  · cases hi.symm.trans hj
    omega
  · cases hi.symm.trans hj
    exact ⟨sig, hcall, hlen⟩

/-- Where control goes from an instruction, receivers below its operands still wait. -/
private theorem Awaited.go (ha : Awaited code n h) (hi : code[n]? = some i) (hh : i.pops ≤ h)
    (hk : k = n + 1 ∧ i.fallsThrough = true ∨ ∃ d, i.dest? = some d ∧ d.target = k) : Awaited code k (i.depthAfter h) := by
  obtain ⟨m, hr, habove⟩ := ha
  rcases hk with ⟨rfl, hf⟩ | ⟨d, hd, ht⟩
  · exact ⟨m, hr, .next habove hi hh hf⟩
  · exact ⟨m, hr, .jump habove hi hh hd ht⟩

namespace StacksAlike

theorem nil : StacksAlike code n extra [] [] := ⟨rfl, by simp⟩

/-- The operands are the same, but for the receiver of a call. -/
theorem take_eq (hs : StacksAlike code n 0 xs ys) (hi : code[n]? = some i) (hk : k ≤ i.pops)
    (hc : ∀ sig, i = .call sig → k ≤ sig.params.length) : ys.take k = xs.take k := by
  refine List.ext_getElem? fun h => ?_
  rw [List.getElem?_take, List.getElem?_take]
  split
  · rename_i hlt
    by_cases hx : h < xs.length
    · have hy : h < ys.length := hs.length_eq ▸ hx
      have hxv := List.getElem?_eq_getElem hx
      have hyv := List.getElem?_eq_getElem hy
      rcases hs.same h _ _ hxv hyv with he | ⟨-, -, ha⟩
      · rw [hxv, hyv, he]
      · obtain ⟨sig, hsig, rfl⟩ := ha.call_of_lt hi (Nat.lt_of_lt_of_le hlt hk)
        exact absurd (hc sig hsig) (Nat.not_le.mpr hlt)
    · rw [List.getElem?_eq_none (Nat.not_lt.mp hx), List.getElem?_eq_none (hs.length_eq ▸ Nat.not_lt.mp hx)]
  · rfl

theorem drop (hs : StacksAlike code n 0 xs ys) (hi : code[n]? = some i)
    (hk : k = n + 1 ∧ i.fallsThrough = true ∨ ∃ d, i.dest? = some d ∧ d.target = k) :
    StacksAlike code k i.pushes (xs.drop i.pops) (ys.drop i.pops) := by
  refine ⟨by rw [List.length_drop, List.length_drop, hs.length_eq], fun h v w hv hw => ?_⟩
  rw [List.getElem?_drop] at hv hw
  refine (hs.same _ v w hv hw).imp_right fun ⟨hvo, hwo, ha⟩ => ⟨hvo, hwo, ?_⟩
  have hgo := Awaited.go ha hi (by omega) hk
  rwa [Instr.depthAfter, show i.pops + h + 0 - i.pops = h by omega] at hgo

/-- Values that are the same come on top. -/
theorem append (vs : List Value) (hs : StacksAlike code n vs.length xs ys) : StacksAlike code n 0 (vs ++ xs) (vs ++ ys) := by
  refine ⟨by rw [List.length_append, List.length_append, hs.length_eq], fun h v w hv hw => ?_⟩
  rcases Nat.lt_or_ge h vs.length with hlt | hge
  · rw [List.getElem?_append_left hlt] at hv hw
    exact .inl (Option.some.inj (hv.symm.trans hw))
  · rw [List.getElem?_append_right hge] at hv hw
    have := hs.same _ v w hv hw
    rwa [show h - vs.length + vs.length = h + 0 by omega] at this

/-- A receiver comes on top. -/
theorem receive {v w : Value} (hs : StacksAlike code (n + 1) 1 xs ys) (hr : Received code n) (hv : v.isObject = true)
    (hw : w.isObject = true) : StacksAlike code (n + 1) 0 (v :: xs) (w :: ys) := by
  refine ⟨congrArg (· + 1) hs.length_eq, fun h v' w' hv' hw' => ?_⟩
  cases h with
  | zero =>
    cases hv'
    cases hw'
    exact .inr ⟨hv, hw, n, hr, .start⟩
  | succ h => exact hs.same h v' w' hv' hw'

end StacksAlike

end

/-- Frames of one method under two names of its class. -/
structure Frame.Twins (a b : String) (extra : Nat) (f g : Frame) : Prop where
  method_eq : g.method = f.method.reclass a b
  discreet : f.method.Discreet
  at_index : ∃ n : Nat, f.pc = n ∧ g.pc = n ∧ StacksAlike f.method.code n extra f.stack g.stack
  size_eq : g.locals.size = f.locals.size
  local_eq : ∀ k, g.locals[k + 1]? = f.locals[k + 1]?
  receiver : f.method.isEntry = false →
    ∃ v w, f.locals[0]? = some v ∧ g.locals[0]? = some w ∧ v.isObject = true ∧ w.isObject = true

/-- Frames that wait for the same call. Its result comes on top of their stacks. -/
structure Pending.Twins (a b : String) (c d : Pending) : Prop where
  sig_eq : d.sig = c.sig
  frame : c.frame.Twins a b c.sig.ret.width d.frame

/-- States of two runs. -/
structure State.Twins (a b : String) (s t : State) : Prop where
  store_eq : t.store = s.store
  steps_eq : t.steps = s.steps
  frame : s.frame.Twins a b 0 t.frame
  callers : List.Forall₂ (Pending.Twins a b) s.callers t.callers

/-- The second run goes on or ends as the first one does, where that is not stopped for its code. -/
def Next.Twins (a b : String) (next next' : Next) : Prop :=
  match next with
  | .running s => ∃ t, next' = .running t ∧ s.Twins a b t
  | .finished st k => next' = .finished st k
  | .stopped st k (.fault e) => next' = .stopped st k (.fault e)
  | .stopped _ _ _ => True

section
variable {a b : String} {p p' : Program} {st : Store} {k : Nat} {f g : Frame} {cs ds : List Pending} {n : Nat} {i : Instr}

theorem Instr.reclass_of_isOpen (hi : i.isOpen = true) : i.reclass a b = i := by
  cases i with
  | new t => cases hi
  | load slot t =>
    have : slot ≠ 0 := by simpa [isOpen] using hi
    simp [reclass, this]
  | _ => rfl

section
variable (ht : f.Twins a b 0 g) (hn : f.pc = n) (hi : f.method.code[n]? = some i)
include ht hn hi

/-- Both frames are at the same instruction. -/
private theorem Frame.Twins.fetch : f.instrAt? f.pc = some i ∧ g.instrAt? g.pc = some (i.reclass a b) ∧ g.pc = n ∧
    StacksAlike f.method.code n 0 f.stack g.stack := by
  obtain ⟨m, hf, hg, hs⟩ := ht.at_index
  obtain rfl : m = n := Int.ofNat.inj (hf.symm.trans hn)
  have hgi : g.method.code[m]? = some (i.reclass a b) := by
    rw [ht.method_eq, Method.reclass, Array.getElem?_map, hi]
    rfl
  exact ⟨by simp [Frame.instrAt?, hf, hi], by simp [Frame.instrAt?, hg, hgi], hg, hs⟩

omit hn hi in
private theorem Frame.Twins.alike (i : Instr) : (f.past i).Alike (g.past i) :=
  ⟨by simp [ht.method_eq, Method.reclass], ht.size_eq, ht.local_eq⟩

/-- Frames that make the same move stay twins. -/
private theorem Frame.Twins.move {f' g' : Frame} (hm : Together (f.past i) (g.past i) f' g')
    (hl : (f.past i).Left i f') : f'.Twins a b 0 g' := by
  obtain ⟨-, -, hg, hs⟩ := ht.fetch hn hi
  obtain ⟨m, rfl, rfl⟩ := hm
  have hpc : (g.past i).pc = (f.past i).pc := by simp [Frame.past, hg, hn]
  have hvalues : m.values.length = i.pushes := by
    have := hl.length_eq
    rw [Frame.move_stack, List.length_append] at this
    omega
  obtain ⟨t, htarget, hgo⟩ : ∃ t : Nat, ((f.past i).move m).pc = t ∧
      (t = n + 1 ∧ i.fallsThrough = true ∨ ∃ d, i.dest? = some d ∧ d.target = t) := by
    rcases hl.pc_eq with ⟨hp, hf⟩ | ⟨d, hd, hp⟩
    · exact ⟨n + 1, hp.trans (by simp [Frame.past, hn]), .inl ⟨rfl, hf⟩⟩
    · obtain ⟨t, htt⟩ := ht.discreet.targets n i d hi hd
      exact ⟨t, hp.trans htt, .inr ⟨d, hd, htt⟩⟩
  refine ⟨by simpa using ht.method_eq, by simpa using ht.discreet, ⟨t, htarget, ?_, ?_⟩, ?_, ?_, ?_⟩
  · rw [Frame.move_pc m hpc, htarget]
  · have hd := hs.drop hi hgo
    rw [← hvalues] at hd
    simpa using hd.append m.values
  · simpa using ht.size_eq
  · exact Frame.move_local m ht.size_eq ht.local_eq
  · simpa using ht.receiver

/-- An instruction that stays in its frame and leaves slot 0 alone. -/
private theorem open_twins (hl : i.pops ≤ f.stack.length) (hcs : List.Forall₂ (Pending.Twins a b) cs ds)
    (ho : i.isOpen = true) : Next.Twins a b (step p ⟨st, k, f, cs⟩) (step p' ⟨st, k, g, ds⟩) := by
  obtain ⟨hf, hg, -, hs⟩ := ht.fetch hn hi
  rw [Instr.reclass_of_isOpen ho] at hg
  have hstays := Instr.stays_of_isOpen ho
  -- no receiver is among the operands, as the instruction is no call
  have hoperands := hs.take_eq hi (Nat.le_refl _) fun sig h => by
    rw [h] at ho
    cases ho
  rw [step_performs hf hl hstays, step_performs hg (hs.length_eq ▸ hl) hstays, hoperands]
  have hmirror := perform_mirrors (ht.alike i) (f.stack.take i.pops).reverse ho st
  cases hp : perform (f.past i) i (f.stack.take i.pops).reverse st with
  | ok f' st' =>
    rw [hp] at hmirror
    obtain ⟨g', hg', hm⟩ := hmirror
    rw [hg']
    have hmark : i.isMark = false := by
      cases i with
      | mark l => cases hp
      | _ => rfl
    have hleft := perform_steady (f.past i) (f.stack.take i.pops).reverse hmark hstays st
    rw [hp] at hleft
    exact ⟨_, rfl, rfl, rfl, ht.move hn hi hm hleft, hcs⟩
  | error e st' =>
    rw [hp] at hmirror
    cases e with
    | fault e =>
      rw [hmirror]
      rfl
    | _ => trivial

/-- Frames that wait for a call, or in front of what comes on top of their stacks. -/
private theorem Frame.Twins.past (hf : i.fallsThrough = true) : (f.past i).Twins a b i.pushes (g.past (i.reclass a b)) := by
  obtain ⟨-, -, hg, hs⟩ := ht.fetch hn hi
  refine ⟨ht.method_eq, ht.discreet, ⟨n + 1, by simp [hn], by simp [hg], ?_⟩, ht.size_eq, ht.local_eq, ht.receiver⟩
  simpa using hs.drop hi (.inl ⟨rfl, hf⟩)

/-- Both frames get a receiver. -/
private theorem Frame.Twins.receive {v w : Value} (hr : Received f.method.code n) (hp : i.pushes = 1)
    (hf : i.fallsThrough = true) (hv : v.isObject = true) (hw : w.isObject = true) :
    ((f.past i).push v).Twins a b 0 ((g.past (i.reclass a b)).push w) := by
  have hpast := ht.past hn hi hf
  obtain ⟨m, hfm, hgm, hs⟩ := hpast.at_index
  obtain rfl : m = n + 1 := by
    rw [Frame.past_pc, hn] at hfm
    omega
  rw [hp] at hs
  exact ⟨ht.method_eq, ht.discreet, ⟨n + 1, hfm, hgm, hs.receive hr hv hw⟩, ht.size_eq, ht.local_eq, ht.receiver⟩

end

private theorem new_twins {t : Ty} (ht : f.Twins a b 0 g) (hn : f.pc = n) (hi : f.method.code[n]? = some (.new t))
    (hcs : List.Forall₂ (Pending.Twins a b) cs ds) :
    Next.Twins a b (step p ⟨st, k, f, cs⟩) (step p' ⟨st, k, g, ds⟩) := by
  obtain ⟨hf, hg, -, -⟩ := ht.fetch hn hi
  have hr := ht.discreet.made n t hi
  rw [step_performs hf (Nat.zero_le _) rfl, step_performs hg (Nat.zero_le _) rfl]
  exact ⟨_, rfl, rfl, rfl, ht.receive hn hi hr rfl rfl rfl rfl, hcs⟩

private theorem perform_load {v : Value} {t : Ty} (hv : f.locals[0]? = some v) (ho : v.isObject = true)
    (operands : List Value) : perform f (.load 0 t) operands st = .ok (f.push v) st := by
  obtain ⟨hlt, -⟩ := Array.getElem?_eq_some_iff.mp hv
  have hslot : f.slot? 0 = some 0 := by simp [Frame.slot?, hlt]
  simp only [perform, withSlot, hslot, Array.getD_eq_getD_getElem?, hv, Option.getD_some]
  cases v <;> first | rfl | cases ho

private theorem load_twins {t : Ty} (ht : f.Twins a b 0 g) (hn : f.pc = n) (hi : f.method.code[n]? = some (.load 0 t))
    (hcs : List.Forall₂ (Pending.Twins a b) cs ds) :
    Next.Twins a b (step p ⟨st, k, f, cs⟩) (step p' ⟨st, k, g, ds⟩) := by
  obtain ⟨hf, hg, -, -⟩ := ht.fetch hn hi
  obtain ⟨hentry, hr⟩ := ht.discreet.loaded n t hi
  obtain ⟨v, w, hv, hw, hvo, hwo⟩ := ht.receiver hentry
  rw [step_performs hf (Nat.zero_le _) rfl, step_performs hg (Nat.zero_le _) rfl,
    perform_load (by simpa using hv) hvo, show (Instr.load 0 t).reclass a b = .load 0 (t.reclass a b) from rfl,
    perform_load (by simpa using hw) hwo]
  exact ⟨_, rfl, rfl, rfl, ht.receive hn hi hr rfl rfl hvo hwo, hcs⟩

private theorem giveBack_twins (v : Value)
    (hcs : List.Forall₂ (Pending.Twins a b) cs ds) :
    Next.Twins a b (giveBack v st k cs) (giveBack v st k ds) := by
  cases hcs with
  | nil => rfl
  | @cons c d cs ds hc hcs =>
    obtain ⟨f, sig⟩ := c
    obtain ⟨g, sig'⟩ := d
    obtain ⟨rfl, ht⟩ := hc
    simp only [giveBack]
    by_cases hvoid : sig'.ret.isVoid = true
    · simp only [if_pos hvoid]
      simp only [Ty.width, hvoid, if_true] at ht
      exact ⟨_, rfl, rfl, rfl, ht, hcs⟩
    · simp only [if_neg hvoid]
      simp only [Ty.width, hvoid] at ht
      obtain ⟨hm, hdisc, ⟨n, hf, hg, hs⟩, hsize, hlocal, hrec⟩ := ht
      cases v with
      | null => trivial
      | _ => exact ⟨_, rfl, rfl, rfl, ⟨hm, hdisc, ⟨n, hf, hg, hs.append [_]⟩, hsize, hlocal, hrec⟩, hcs⟩

private theorem ret_twins {t : Ty} (ht : f.Twins a b 0 g) (hn : f.pc = n) (hi : f.method.code[n]? = some (.ret t))
    (hl : t.width ≤ f.stack.length) (hcs : List.Forall₂ (Pending.Twins a b) cs ds) :
    Next.Twins a b (step p ⟨st, k, f, cs⟩) (step p' ⟨st, k, g, ds⟩) := by
  obtain ⟨hf, hg, -, hs⟩ := ht.fetch hn hi
  have hoperand : g.stack.take t.width = f.stack.take t.width := hs.take_eq hi (Nat.le_refl _) nofun
  rw [step_returns hf hl, step_returns hg (hs.length_eq ▸ hl), hoperand]
  exact giveBack_twins _ hcs

private theorem unreachable_twins (ht : f.Twins a b 0 g) (hn : f.pc = n) (hi : f.method.code[n]? = some .unreachable) :
    Next.Twins a b (step p ⟨st, k, f, cs⟩) (step p' ⟨st, k, g, ds⟩) := by
  obtain ⟨hf, hg, -, -⟩ := ht.fetch hn hi
  rw [step_unreachable hf, step_unreachable hg, Frame.fault, Frame.fault, Frame.past_method, Frame.past_method, ht.method_eq]
  rfl

private theorem receiver_operand {sig : Signature} {vs : List Value} (hl : sig.params.length < vs.length) :
    (vs.take (Instr.call sig).pops).reverse = vs[sig.params.length] :: (vs.take sig.params.length).reverse := by
  rw [Instr.pops, List.take_succ_eq_append_getElem hl, List.reverse_append]
  rfl

/-- Two activations of one method. Only what stands in slot 0 may differ. -/
theorem enter_twins {m : Method} {v w : Value} (hm : m.Discreet)
    (hr : m.isEntry = false → v.isObject = true ∧ w.isObject = true) (args : List Value) (depth : Nat) :
    match enter m (v :: args) depth with
    | .ok f => ∃ g, enter (m.reclass a b) (w :: args) depth = .ok g ∧ f.Twins a b 0 g
    | .error e => enter (m.reclass a b) (w :: args) depth = .error e := by
  have hname : (m.reclass a b).name = m.name := rfl
  have hsig : (m.reclass a b).sig = m.sig := rfl
  have hlocals : (m.reclass a b).maxLocals = m.maxLocals := rfl
  unfold enter
  simp only [hname, hsig, hlocals, List.length_cons]
  by_cases hdepth : maxCallDepth ≤ depth
  · simp only [if_pos hdepth]
  · by_cases hmany : m.maxLocals < args.length + 1
    · simp only [if_neg hdepth, if_pos hmany]
    · simp only [if_neg hdepth, if_neg hmany]
      refine ⟨_, rfl, rfl, hm, ⟨0, rfl, rfl, .nil⟩, ?_, fun k => ?_, fun he => ⟨v, w, rfl, rfl, hr he⟩⟩
      · simp [activate, Method.reclass]
      · simp [activate, Method.reclass]

section
variable (hm : ∀ m ∈ p.methods, m.Discreet) (hm' : p'.methods = p.methods.map (Method.reclass a b))
include hm'

private theorem method?_reclass (name : String) : p'.method? name = (p.method? name).map (Method.reclass a b) := by
  rw [Program.method?, hm', List.find?_map]
  rfl

include hm

private theorem invoke_twins (sig : Signature) {v w : Value} (hv : v = w ∨ v.isObject = true ∧ w.isObject = true)
    (args : List Value) (depth : Nat) (h : Heap) :
    match invoke p f sig (v :: args) depth h with
    | .ok f' => ∃ g', invoke p' g sig (w :: args) depth h = .ok g' ∧ f'.Twins a b 0 g'
    | .error (.fault e) => invoke p' g sig (w :: args) depth h = .error (.fault e)
    | .error _ => True := by
  unfold invoke
  rw [method?_reclass hm']
  cases hfind : p.method? sig.name with
  | none => trivial
  | some m =>
    by_cases hobj : v.isObject = true
    · have hw : w.isObject = true := hv.elim (fun h => h ▸ hobj) And.right
      obtain ⟨x, y, rfl⟩ : ∃ x y, v = .object x y := by
        cases v <;> first | exact ⟨_, _, rfl⟩ | cases hobj
      obtain ⟨x', y', rfl⟩ : ∃ x y, w = .object x y := by
        cases w <;> first | exact ⟨_, _, rfl⟩ | cases hw
      have henter := enter_twins (a := a) (b := b) (hm m (List.mem_of_find?_eq_some hfind)) (fun _ => ⟨hobj, hw⟩) args depth
      simp only [Option.map_some]
      split
      · simp_all
      · simp_all
      · trivial
    · cases v with
      | object x y => exact absurd rfl hobj
      | _ => trivial

/-- Both runs go on in the method that is called, or neither does. -/
private theorem call_twins {sig : Signature} (ht : f.Twins a b 0 g) (hn : f.pc = n)
    (hi : f.method.code[n]? = some (.call sig)) (hl : sig.params.length < f.stack.length)
    (hcs : List.Forall₂ (Pending.Twins a b) cs ds) : Next.Twins a b (step p ⟨st, k, f, cs⟩) (step p' ⟨st, k, g, ds⟩) := by
  obtain ⟨hf, hg, -, hs⟩ := ht.fetch hn hi
  have hl' : sig.params.length < g.stack.length := hs.length_eq ▸ hl
  have hargs : g.stack.take sig.params.length = f.stack.take sig.params.length :=
    hs.take_eq hi (Nat.le_succ _) fun sig' h => by
      cases h
      exact Nat.le_refl _
  -- the lowest operand is the one that a receiver may wait as
  have hreceiver := (hs.same _ _ _ (List.getElem?_eq_getElem hl) (List.getElem?_eq_getElem hl')).imp_right
    fun ⟨hv, hw, _⟩ => And.intro hv hw
  have hinvoke := invoke_twins (f := f.past (.call sig)) (g := g.past (.call sig)) hm hm' sig hreceiver
    (f.stack.take sig.params.length).reverse (cs.length + 1) st.heap
  rw [step_calls hf hl, step_calls hg hl', receiver_operand hl, receiver_operand hl', hargs, hcs.length_eq.symm]
  split at hinvoke
  · rename_i f' hf'
    obtain ⟨g', hg', ht'⟩ := hinvoke
    rw [hf', hg']
    exact ⟨_, rfl, rfl, rfl, ht', .cons ⟨rfl, ht.past hn hi rfl⟩ hcs⟩
  · rename_i e hf'
    rw [hf', hinvoke]
    rfl
  · rename_i e hne hf'
    rw [hf']
    cases e with
    | fault e => exact absurd rfl (hne e)
    | _ => trivial

/-- Twins make the same step. -/
theorem step_twins {s t : State} (h : s.Twins a b t) : Next.Twins a b (step p s) (step p' t) := by
  obtain ⟨st, k, f, cs⟩ := s
  obtain ⟨st', k', g, ds⟩ := t
  obtain ⟨hst, hk, ht, hcs⟩ := h
  cases hst
  cases hk
  change f.Twins a b 0 g at ht
  change List.Forall₂ (Pending.Twins a b) cs ds at hcs
  obtain ⟨n, hn, -⟩ := ht.at_index
  have hfetch : f.instrAt? f.pc = f.method.code[n]? := by
    rw [Frame.instrAt?, hn, if_neg (by omega), Int.toNat_natCast]
  cases hi : f.method.code[n]? with
  | none =>
    rw [step_outside (hfetch.trans hi)]
    trivial
  | some i =>
    by_cases hl : i.pops ≤ f.stack.length
    · cases i with
      | new t => exact new_twins ht hn hi hcs
      | ret t => exact ret_twins ht hn hi hl hcs
      | unreachable => exact unreachable_twins ht hn hi
      | call sig => exact call_twins hm hm' ht hn hi hl hcs
      | load slot t =>
        by_cases hslot : slot = 0
        · subst hslot
          exact load_twins ht hn hi hcs
        · exact open_twins ht hn hi hl hcs (by simpa [Instr.isOpen] using hslot)
      | store slot t =>
        have hslot := ht.discreet.stored n slot t hi
        exact open_twins ht hn hi hl hcs (by simpa [Instr.isOpen] using hslot)
      | clear slot =>
        have hslot := ht.discreet.cleared n slot hi
        exact open_twins ht hn hi hl hcs (by simpa [Instr.isOpen] using hslot)
      | _ => exact open_twins ht hn hi hl hcs rfl
    · rw [step_underflow (hfetch.trans hi) (Nat.not_le.mp hl)]
      trivial

/-- Runs start alike, whatever the argument vectors are. -/
theorem start_twins (args args' : List String) :
    match start p args with
    | .ok s => ∃ t, start p' args' = .ok t ∧ s.Twins a b t
    | .error e => start p' args' = .error e := by
  have hentry : p'.entry? = p.entry?.map (Method.reclass a b) := by
    rw [Program.entry?, hm', List.find?_map]
    rfl
  unfold start
  rw [hentry]
  cases hfind : p.entry? with
  | none => rfl
  | some m =>
    have hstatic : m.isEntry = true := List.find?_some hfind
    have hdiscreet := hm m (List.mem_of_find?_eq_some hfind)
    have hsig : (m.reclass a b).sig = m.sig := rfl
    simp only [Option.map_some, hsig]
    rcases m.sig.params with _ | ⟨t, rest⟩
    · rfl
    · cases t with
      | array u =>
        dsimp only
        rcases zeros Heap.empty rest with t | ⟨vs, h⟩
        · rfl
        · have henter := enter_twins (a := a) (b := b) (v := .array args) (w := .array args') hdiscreet
            (fun he => absurd (hstatic.symm.trans he) nofun) vs 0
          split at henter
          · rename_i f hf
            obtain ⟨g, hg, ht⟩ := henter
            simp only [hf, hg]
            exact ⟨_, rfl, rfl, rfl, ht, .nil⟩
          · rename_i e he
            simp only [he, henter]
            rfl
      | _ => rfl

end

end

end Machine
end WhileStack
