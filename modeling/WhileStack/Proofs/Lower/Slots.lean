import WhileStack.Proofs.Lower.Compiled
import WhileStack.Proofs.Machine.Receiver

/-! Slots in lowered code. They are numbered in the order in which variables are declared, code names them as they were
given out, and slot 0 of a method with a receiver is loaded for calls only. -/
namespace WhileStack

namespace Source.Stmt

mutual

/-- The variables that a statement declares anywhere inside, in the order in which they are lowered: a loop comes with
its first declaration, then its body, then its step. -/
def declared : Stmt → List VarDecl
  | decl d => [d]
  | ifElse _ _ yes no => declaredIn yes ++ declaredIn no
  | whileDo _ _ body => declaredIn body
  | forDo _ init _ step body => init :: (declaredIn body ++ declared step)
  | _ => []

def declaredIn : List Stmt → List VarDecl
  | [] => []
  | s :: rest => declared s ++ declaredIn rest

end

end Source.Stmt

namespace Lower
open Source (Expr Stmt VarDecl Aliases)
open Machine (Code Instr Local)

/-- The slot of a variable: with its name, and the layout of its type. -/
def SlotOf (aliases : Aliases) (x : String × Source.Ty) (l : Local) : Prop :=
  l.name = x.1 ∧ valueLayout aliases x.2 = .ok l.ty

namespace Symbols
variable {s s' : Symbols} {name : String} {l : Local} {ty : Machine.Ty}

/-- Slots are numbered in their order, and names stand for some of them. -/
structure Numbered (s : Symbols) : Prop where
  slot_eq : ∀ (i : Nat) (l : Local), s.locals[i]? = some l → l.slot = i
  mem : ∀ b ∈ s.visible, b.2 ∈ s.locals

@[simp] theorem locals_enter (s : Symbols) : s.enter.locals = s.locals := rfl

@[simp] theorem locals_exit (s : Symbols) : s.exit.locals = s.locals := by
  obtain ⟨inner, outer, allocated⟩ := s
  cases outer <;> rfl

theorem length_locals (s : Symbols) : s.locals.length = s.size := List.length_reverse

theorem locals_declare (h : s.declare name ty = .ok (l, s')) : s'.locals = s.locals ++ [l] ∧ l.name = name ∧ l.ty = ty := by
  obtain ⟨-, rfl, rfl⟩ := declare_eq_ok h
  exact ⟨List.reverse_cons, rfl, rfl⟩

theorem Numbered.declare (hn : s.Numbered) (h : s.declare name ty = .ok (l, s')) : s'.Numbered := by
  have hl := (locals_declare h).1
  obtain ⟨-, rfl, rfl⟩ := declare_eq_ok h
  constructor
  · intro i m hi
    rw [hl] at hi
    rcases Nat.lt_or_ge i s.locals.length with hlt | hge
    · rw [List.getElem?_append_left hlt] at hi
      exact hn.slot_eq i m hi
    · rw [List.getElem?_append_right hge] at hi
      obtain ⟨hlt, rfl⟩ := List.getElem?_eq_some_iff.mp hi
      rw [length_locals] at hge hlt
      simp at hlt
      simp
      omega
  · intro b hb
    rw [hl, List.mem_append]
    rcases List.mem_cons.mp hb with rfl | hb
    · exact .inr (List.mem_singleton.mpr rfl)
    · exact .inl (hn.mem b hb)

theorem Numbered.enter (hn : s.Numbered) : s.enter.Numbered := ⟨hn.slot_eq, hn.mem⟩

theorem Numbered.exit (hn : s.Numbered) : s.exit.Numbered := by
  obtain ⟨inner, outer, allocated⟩ := s
  cases outer with
  | nil => exact hn
  | cons scope outer => exact ⟨hn.slot_eq, fun b hb => hn.mem b (List.mem_append_right _ hb)⟩

end Symbols

/-! ### The slots that are given out -/

section
variable {h : Host} {s s' : State} {c : Code}

theorem LowersDecl.locals {d : VarDecl} (hd : LowersDecl h s d c s') :
    ∃ l, s'.symbols.locals = s.symbols.locals ++ [l] ∧ SlotOf h.env.aliases (d.name, d.ty) l := by
  cases hd with
  | init _ ht _ _ hl | unset _ ht hl =>
    obtain ⟨hlocals, hname, rfl⟩ := Symbols.locals_declare hl
    exact ⟨_, hlocals, hname, ht⟩

theorem LowersDecl.numbered {d : VarDecl} (hn : s.symbols.Numbered) (hd : LowersDecl h s d c s') : s'.symbols.Numbered := by
  cases hd with
  | init _ _ _ _ hl | unset _ _ hl => exact hn.declare hl

mutual

/-- A statement adds the slots of the variables it declares. -/
theorem LowersStmt.locals {h s stmt c s'} : LowersStmt h s stmt c s' → ∃ news, s'.symbols.locals = s.symbols.locals ++ news ∧
    List.Forall₂ (fun d l => SlotOf h.env.aliases (d.name, d.ty) l) stmt.declared news
  | .decl hd => by
    obtain ⟨l, hl, hs⟩ := hd.locals
    exact ⟨[l], hl, by rw [Stmt.declared]; exact .cons hs .nil⟩
  | .assign _ | .print _ _ | .leave _ | .ret _ _ | .effect _ => ⟨[], by simp, by rw [Stmt.declared] <;> simp⟩
  | .ifElse _ hy hz => by
    obtain ⟨ys, hys, hy'⟩ := hy.locals
    obtain ⟨zs, hzs, hz'⟩ := hz.locals
    refine ⟨ys ++ zs, ?_, by rw [Stmt.declared]; exact List.rel_append hy' hz'⟩
    simp_all
  | .whileDo _ hb => by
    obtain ⟨bs, hbs, hb'⟩ := hb.locals
    exact ⟨bs, by simpa using hbs, by rw [Stmt.declared]; exact hb'⟩
  | .forDo hi _ hb hu => by
    obtain ⟨l, hl, hl'⟩ := hi.locals
    obtain ⟨bs, hbs, hb'⟩ := hb.locals
    obtain ⟨us, hus, hu'⟩ := hu.locals
    refine ⟨l :: (bs ++ us), ?_, by rw [Stmt.declared]; exact .cons hl' (List.rel_append hb' hu')⟩
    simp_all

theorem LowersBlock.locals {h s stmts c s'} : LowersBlock h s stmts c s' →
    ∃ news, s'.symbols.locals = s.symbols.locals ++ news ∧
      List.Forall₂ (fun d l => SlotOf h.env.aliases (d.name, d.ty) l) (Stmt.declaredIn stmts) news
  | .nil => ⟨[], by simp, by rw [Stmt.declaredIn]; exact .nil⟩
  | .cons hs hb => by
    obtain ⟨ss, hss, hs'⟩ := hs.locals
    obtain ⟨bs, hbs, hb'⟩ := hb.locals
    exact ⟨ss ++ bs, by rw [hbs, hss, List.append_assoc], by rw [Stmt.declaredIn]; exact List.rel_append hs' hb'⟩

end

mutual

theorem LowersStmt.numbered {h s stmt c s'} (hn : s.symbols.Numbered) : LowersStmt h s stmt c s' → s'.symbols.Numbered
  | .decl hd => hd.numbered hn
  | .assign _ | .print _ _ | .leave _ | .ret _ _ | .effect _ => hn
  | .ifElse _ hy hz => (hz.numbered (hy.numbered hn.enter).exit.enter).exit
  | .whileDo _ hb => (hb.numbered hn.enter).exit
  | .forDo hi _ hb hu => (hu.numbered (hb.numbered (hi.numbered hn.enter).enter).exit).exit

theorem LowersBlock.numbered {h s stmts c s'} (hn : s.symbols.Numbered) : LowersBlock h s stmts c s' → s'.symbols.Numbered
  | .nil => hn
  | .cons hs hb => hb.numbered (hs.numbered hn)

end

/-- No slot is taken back. -/
theorem LowersDecl.locals_subset {d : VarDecl} (hd : LowersDecl h s d c s') : s.symbols.locals ⊆ s'.symbols.locals := by
  obtain ⟨l, hl, -⟩ := hd.locals
  rw [hl]
  exact List.subset_append_left ..

theorem LowersStmt.locals_subset {stmt : Stmt} (hs : LowersStmt h s stmt c s') : s.symbols.locals ⊆ s'.symbols.locals := by
  obtain ⟨news, hnews, -⟩ := hs.locals
  rw [hnews]
  exact List.subset_append_left ..

theorem LowersBlock.locals_subset {stmts : List Stmt} (hb : LowersBlock h s stmts c s') :
    s.symbols.locals ⊆ s'.symbols.locals := by
  obtain ⟨news, hnews, -⟩ := hb.locals
  rw [hnews]
  exact List.subset_append_left ..

end

section
variable {env : Env} {f : Source.FunDecl} {sig : Machine.Signature} {s s' : Symbols}

private theorem declareParams_slots {seen : List String} {ps : List (String × Machine.Ty)} (hn : s.Numbered)
    (h : declareParams f seen ps s = .ok s') : s'.Numbered ∧ ∃ news : List Local, s'.locals = s.locals ++ news ∧
      s'.visible = (news.map fun l => (l.name, l)).reverse ++ s.visible ∧
      List.Forall₂ (fun p l => l.name = p.1 ∧ l.ty = p.2) ps news := by
  induction ps generalizing seen s with
  | nil =>
    cases h
    exact ⟨hn, [], by simp, by simp, .nil⟩
  | cons p ps ih =>
    obtain ⟨name, ty⟩ := p
    simp only [declareParams] at h
    split at h
    · cases h
    · split at h
      · cases h
      · rename_i l s₁ hd
        obtain ⟨hn', news, hnews, hvisible, hs⟩ := ih (hn.declare hd) h
        obtain ⟨hl, hname⟩ := Symbols.locals_declare hd
        obtain ⟨-, rfl, rfl⟩ := Symbols.declare_eq_ok hd
        refine ⟨hn', _ :: news, by rw [hnews, hl, List.append_assoc]; rfl, ?_, .cons hname hs⟩
        rw [hvisible, List.map_cons, List.reverse_cons, List.append_assoc]
        rfl

private theorem slotOf_zip {aliases : Aliases} {ps : List (String × Source.Ty)} {types : List Machine.Ty}
    {news : List Local} (ht : List.Forall₂ (fun p t => valueLayout aliases p.2 = .ok t) ps types)
    (hs : List.Forall₂ (fun p l => l.name = p.1 ∧ l.ty = p.2) ((ps.map Prod.fst).zip types) news) :
    List.Forall₂ (SlotOf aliases) ps news := by
  induction ht generalizing news with
  | nil =>
    cases hs
    exact .nil
  | cons ht _ ih =>
    rw [List.map_cons, List.zip_cons_cons] at hs
    cases hs with
    | cons h hs => exact .cons ⟨h.1, by rw [ht, h.2]⟩ (ih hs)

/-- Parameters come right behind the first slot, and can be seen under their names. -/
theorem initialSymbols_slots (hsig : signatureOf env f = .ok sig) (h : initialSymbols env f sig = .ok s) :
    s.Numbered ∧ ∃ news : List Local, s.locals = ⟨(implicitSlot env f).1, 0, (implicitSlot env f).2⟩ :: news ∧
      s.visible = (news.map fun l => (l.name, l)).reverse ∧ List.Forall₂ (SlotOf env.aliases) f.params news := by
  obtain ⟨types, htypes, -, hparams, -⟩ := signatureOf_eq_ok hsig
  unfold initialSymbols at h
  rcases hr : Symbols.empty.reserve (implicitSlot env f).1 (implicitSlot env f).2 with e | ⟨l, s₀⟩
  · simp [hr, Partial.mapError_error, bind, Except.bind] at h
  simp only [hr, Partial.mapError_ok, bind, Except.bind] at h
  unfold Symbols.reserve at hr
  split at hr
  · cases hr
  cases hr
  have hdrop : sig.params.drop (sig.params.length - f.params.length) = types := by
    rw [hparams, List.length_append, htypes.length_eq, Nat.add_sub_cancel, List.drop_left]
  rw [hdrop] at h
  have h0 : Symbols.Numbered ⟨[], [], [⟨(implicitSlot env f).1, 0, (implicitSlot env f).2⟩]⟩ := by
    refine ⟨fun i l hi => ?_, nofun⟩
    cases i with
    | zero =>
      cases hi
      rfl
    | succ i => cases hi
  obtain ⟨hn, news, hnews, hvisible, hs⟩ := declareParams_slots h0 h
  exact ⟨hn, news, hnews, hvisible.trans (List.append_nil _), slotOf_zip htypes hs⟩

/-- Every instruction of a method is one of the code, but for its branch, and has the code behind it. -/
theorem Emitted.found {f : Source.FunDecl} {m : Machine.Method} {code : Code} (he : Emitted env f m sig code s) :
    ∃ index, ∀ (n : Nat) j, m.code[n]? = some j → ∃ a i b, code = a ++ i :: b ∧ j = Machine.retarget index i ∧
      Machine.Placed index m.code n (i :: b) := by
  obtain ⟨full, hfull, hcode⟩ := he.resolved
  obtain ⟨index, hlen, hp⟩ := Machine.resolve_placed hfull
  have hsize : m.code.size = Machine.realCount code := by rw [hcode, ← hlen, List.size_toArray]
  rw [← hcode] at hp
  refine ⟨index, fun n j hj => ?_⟩
  obtain ⟨a, i, b, rfl, rfl, rfl⟩ := hp.found hsize hj
  have hplaced := (Machine.placed_append.mp hp).2
  rw [Nat.zero_add] at hplaced
  exact ⟨a, i, b, rfl, rfl, hplaced⟩

end

/-! ### Slots that code names -/

/-- Slots are named as they were given out. Slot 0 is not written. -/
def Keeps (locals : List Local) : Instr → Prop
  | .load slot ty => ∃ l ∈ locals, slot = l.slot ∧ ty = l.ty
  | .store slot ty => ∃ l ∈ locals, slot = l.slot ∧ ty = l.ty ∧ 0 < l.slot
  | .clear slot => ∃ l ∈ locals, slot = l.slot ∧ 0 < l.slot
  | _ => True

/-- Instructions that name a slot. -/
def isLocal : Instr → Bool
  | .load .. | .store .. | .clear _ => true
  | _ => false

/-- Code for the arguments of a call stands first, and then that call. -/
def CallFollows (c : Code) : Prop :=
  ∃ args sig rest n n', c = args ++ .call sig :: rest ∧ Chunk n n' 0 sig.params.length args ∧
    (∀ i ∈ args, i.fallsThrough = true ∨ i.isBranch = true) ∧ sig.isStatic = false

/-- Only methods with a receiver load slot 0, for a call. -/
def Receives (isStatic : Bool) (c : Code) : Prop :=
  ∀ a t b, c = a ++ .load 0 t :: b → isStatic = false ∧ CallFollows b

/-- Code of expressions: it writes no slot, and does not leave the method. -/
structure Reads (locals : List Local) (isStatic : Bool) (c : Code) : Prop where
  keeps : ∀ i ∈ c, Keeps locals i
  stays : ∀ i ∈ c, i.fallsThrough = true ∨ i.isBranch = true
  receives : Receives isStatic c

/-- Code of statements. -/
structure Uses (locals : List Local) (isStatic : Bool) (c : Code) : Prop where
  keeps : ∀ i ∈ c, Keeps locals i
  receives : Receives isStatic c

section
variable {locals locals' : List Local} {isStatic : Bool} {a b c : Code} {i : Instr}

theorem Keeps.mono (hs : locals ⊆ locals') (h : Keeps locals i) : Keeps locals' i := by
  cases i with
  | load | store | clear =>
    obtain ⟨l, hl, h⟩ := h
    exact ⟨l, hs hl, h⟩
  | _ => trivial

theorem Keeps.of_not_isLocal (h : isLocal i = false) : Keeps locals i := by
  cases i with
  | load | store | clear => cases h
  | _ => trivial

theorem CallFollows.append (h : CallFollows a) (b : Code) : CallFollows (a ++ b) := by
  obtain ⟨args, sig, rest, n, n', rfl, h⟩ := h
  exact ⟨args, sig, rest ++ b, n, n', by simp, h⟩

/-- What stands in front of the arguments waits for the call. -/
theorem CallFollows.received {index : Machine.Label → Nat} {full : Array Instr} {n : Nat} (h : CallFollows c)
    (hi : i.isMark = false) (hp : Machine.Placed index full n (i :: c)) : Machine.Received full n := by
  obtain ⟨args, sig, rest, m, m', rfl, hc, hstay, hsig⟩ := h
  have hs := hc.sinks 0
  rw [Nat.zero_add, Nat.zero_add] at hs
  exact Machine.received hi hc.labels hs hstay hsig hp

theorem Receives.append (ha : Receives isStatic a) (hb : Receives isStatic b) : Receives isStatic (a ++ b) := by
  intro x t y h
  rcases List.append_eq_append_iff.mp h with ⟨x', rfl, hb'⟩ | ⟨a', rfl, hb'⟩
  · exact hb x' t y hb'
  · cases a' with
    | nil => exact hb [] t y hb'.symm
    | cons i a' =>
      cases hb'
      exact (ha x t a' rfl).imp_right fun h => h.append b

theorem Receives.of_not_isLocal (h : c.all (fun i => !isLocal i) = true) : Receives isStatic c := by
  rintro x t y rfl
  simp [isLocal] at h

theorem Reads.append (ha : Reads locals isStatic a) (hb : Reads locals isStatic b) : Reads locals isStatic (a ++ b) :=
  ⟨List.forall_mem_append.mpr ⟨ha.keeps, hb.keeps⟩, List.forall_mem_append.mpr ⟨ha.stays, hb.stays⟩,
    ha.receives.append hb.receives⟩

theorem Reads.plain (h : c.all (fun i => !isLocal i) = true)
    (hs : c.all (fun i => i.fallsThrough || i.isBranch) = true) : Reads locals isStatic c := by
  refine ⟨fun i hi => ?_, fun i hi => ?_, .of_not_isLocal h⟩
  · apply Keeps.of_not_isLocal
    simpa using List.all_eq_true.mp h i hi
  · simpa using List.all_eq_true.mp hs i hi

theorem Reads.load {l : Local} (hl : l ∈ locals) (hpos : 0 < l.slot) : Reads locals isStatic [.load l.slot l.ty] := by
  refine ⟨?_, ?_, ?_⟩
  · rintro i hi
    obtain rfl := List.mem_singleton.mp hi
    exact ⟨l, hl, rfl, rfl⟩
  · rintro i hi
    obtain rfl := List.mem_singleton.mp hi
    exact .inl rfl
  · intro x t y h
    have hm : Instr.load 0 t ∈ [Instr.load l.slot l.ty] := by rw [h]; simp
    have h0 : (0 : Int) = l.slot := (Instr.load.inj (List.mem_singleton.mp hm)).1
    omega

theorem Reads.call {args : Code} {sig : Machine.Signature} {l : Local} {n n' : Nat} (hl : l ∈ locals) (h0 : l.slot = 0)
    (hst : isStatic = false) (ha : Reads locals isStatic args) (hc : Chunk n n' 0 sig.params.length args)
    (hsig : sig.isStatic = false) : Reads locals isStatic (.load 0 l.ty :: args ++ [.call sig]) := by
  have hcall : Reads locals isStatic [.call sig] := .plain rfl rfl
  have htail := ha.append hcall
  refine ⟨?_, ?_, ?_⟩
  · exact List.forall_mem_cons.mpr ⟨⟨l, hl, by rw [h0]; rfl, rfl⟩, htail.keeps⟩
  · exact List.forall_mem_cons.mpr ⟨.inl rfl, htail.stays⟩
  · intro x t y h
    cases x with
    | nil =>
      cases h
      exact ⟨hst, args, sig, [], n, n', rfl, hc, ha.stays, hsig⟩
    | cons i x => exact htail.receives x t y (List.cons.inj h).2

theorem Reads.uses (h : Reads locals isStatic c) (hs : locals ⊆ locals') : Uses locals' isStatic c :=
  ⟨fun i hi => (h.keeps i hi).mono hs, h.receives⟩

theorem Uses.mono (h : Uses locals isStatic c) (hs : locals ⊆ locals') : Uses locals' isStatic c :=
  ⟨fun i hi => (h.keeps i hi).mono hs, h.receives⟩

theorem Uses.append (ha : Uses locals isStatic a) (hb : Uses locals isStatic b) : Uses locals isStatic (a ++ b) :=
  ⟨List.forall_mem_append.mpr ⟨ha.keeps, hb.keeps⟩, ha.receives.append hb.receives⟩

theorem Uses.plain (h : c.all (fun i => !isLocal i) = true) : Uses locals isStatic c := by
  refine ⟨fun i hi => ?_, .of_not_isLocal h⟩
  apply Keeps.of_not_isLocal
  simpa using List.all_eq_true.mp h i hi

/-- An instruction other than a load. -/
theorem Uses.one (h : Keeps locals i) (hl : ∀ t, i ≠ .load 0 t) : Uses locals isStatic [i] := by
  refine ⟨fun j hj => List.mem_singleton.mp hj ▸ h, fun x t y hx => ?_⟩
  have hm : Instr.load 0 t ∈ [i] := by rw [hx]; simp
  exact absurd (List.mem_singleton.mp hm).symm (hl t)

theorem ifChunk_uses {n : Nat} {returns : Bool} (hc : Uses locals isStatic c) (ha : Uses locals isStatic a)
    (hb : Uses locals isStatic b) : Uses locals isStatic (ifChunk n c a returns b) := by
  have hjump : Uses locals isStatic (if returns then [] else [.goto (.toLabel (label n 2))]) := by
    split <;> exact .plain rfl
  exact (((((hc.append (.plain rfl)).append ha).append hjump).append (.plain rfl)).append hb).append (.plain rfl)

theorem loopChunk_uses {n : Nat} (hc : Uses locals isStatic c) (ha : Uses locals isStatic a) (hb : Uses locals isStatic b) :
    Uses locals isStatic (loopChunk n c a b) := by
  have hmark : Uses locals isStatic [.mark (label n 1)] := .plain rfl
  exact ((((hmark.append hc).append (.plain rfl)).append ha).append hb).append (.plain rfl)

end

/-- Names stand for slots in their order, and the receiver has the first slot. -/
structure View.Ready (v : View) : Prop where
  valid : v.symbols.Valid
  numbered : v.symbols.Numbered
  receiver : v.isStatic = false → ∃ l ∈ v.symbols.locals, l.slot = 0 ∧ l.ty = v.env.receiver

section
variable {v : View} {n n' : Nat} {e : Expr} {c : Code} {t : Machine.Ty}

theorem View.Ready.found {name : String} {l : Local} (hv : v.Ready) (hl : v.symbols.lookup? name = some l) :
    l ∈ v.symbols.locals ∧ 0 < l.slot :=
  have hm := Symbols.mem_of_lookup? hl
  ⟨hv.numbered.mem _ hm, (hv.valid.bound _ hm).1⟩

mutual

theorem LowersExpr.reads {v n e c t n'} (hv : v.Ready) :
    LowersExpr v n e c t n' → Reads v.symbols.locals v.isStatic c
  | .const _ _ => .plain rfl rfl
  | .var (l := l) hl _ => by
    obtain ⟨hm, hpos⟩ := hv.found hl
    have hcopy : Reads v.symbols.locals v.isStatic (if l.ty.isComposite then [.clone l.ty] else []) := by
      split <;> exact .plain rfl rfl
    exact (Reads.load hm hpos).append hcopy
  | @LowersExpr.logic _ _ _ _ _ _ isOr _ _ _ _ _ hl hr _ => by
    refine (((hl.reads hv).append ?_).append (hr.reads hv)).append (.plain rfl rfl)
    cases isOr <;> exact .plain rfl rfl
  | @LowersExpr.equality _ _ _ _ _ _ _ isNe _ _ _ _ _ _ _ hl _ hr hc _ => by
    refine ((hl.reads hv).append (hr.reads hv)).append ?_
    cases hc <;> cases isNe <;> exact .plain rfl rfl
  | .append _ hl hr _ | .arith _ hl hr _ | .order _ hl hr _ =>
    ((hl.reads hv).append (hr.reads hv)).append (.plain rfl rfl)
  | .not h _ | .neg h _ | .length _ h _ | .convert h _ _ _ => (h.reads hv).append (.plain rfl rfl)
  | .keep h _ _ => h.reads hv
  | .call _ hsig ha _ => by
    have hargs := ha.reads hv
    cases hst : v.isStatic with
    | true =>
      have hrec : receiverCode v = .new v.env.receiver := if_pos hst
      rw [hrec, ← hst]
      have hnew : Reads v.symbols.locals v.isStatic [.new v.env.receiver] := .plain rfl rfl
      exact (hnew.append hargs).append (.plain rfl rfl)
    | false =>
      obtain ⟨l, hl, h0, ht⟩ := hv.receiver hst
      have hrec : receiverCode v = .load 0 l.ty := by rw [receiverCode, hst, ht]; rfl
      rw [hrec, ← hst]
      exact .call hl h0 hst hargs (ha.chunk hv.valid.toHoldsValues) hsig
  | .index hs hp _ => ((hs.reads hv).append (hp.reads hv)).append (.plain rfl rfl)
  | .list _ ha | .record _ _ ha => (ha.reads hv).append (.plain rfl rfl)
  | .field hs _ _ => (hs.reads hv).append (.plain rfl rfl)

theorem LowersArgs.reads {v n ts es c n'} (hv : v.Ready) :
    LowersArgs v n ts es c n' → Reads v.symbols.locals v.isStatic c
  | .nil => .plain rfl rfl
  | .cons h _ ha => (h.reads hv).append (ha.reads hv)

end

theorem LowersTarget.reads (hv : v.Ready) (h : LowersTarget v n e c t n') : Reads v.symbols.locals v.isStatic c := by
  induction h with
  | var hl _ =>
    obtain ⟨hm, hpos⟩ := hv.found hl
    exact .load hm hpos
  | index _ hp _ ih => exact (ih.append (hp.reads hv)).append (.plain rfl rfl)
  | field _ _ _ ih => exact ih.append (.plain rfl rfl)
  | value _ he _ => exact he.reads hv

theorem LowersAssign.uses {target : Source.Target} (hv : v.Ready) (h : LowersAssign v n e target c n') :
    Uses v.symbols.locals v.isStatic c := by
  have hsub := List.Subset.refl v.symbols.locals
  cases h with
  | var he _ hl =>
    obtain ⟨hm, hpos⟩ := hv.found hl
    exact ((he.reads hv).uses hsub).append (.one ⟨_, hm, rfl, rfl, hpos⟩ nofun)
  | index he _ hs hp => exact ((((he.reads hv).append (hs.reads hv)).append (hp.reads hv)).uses hsub).append (.plain rfl)
  | field he _ hs _ => exact (((he.reads hv).append (hs.reads hv)).uses hsub).append (.plain rfl)

end

section
variable {h : Host} {s s' : State} {c : Code}

theorem View.Ready.enter {symbols : Symbols} (hr : (h.view symbols).Ready) : (h.view symbols.enter).Ready :=
  ⟨hr.valid.enter, hr.numbered.enter, hr.receiver⟩

theorem View.Ready.exit {symbols : Symbols} (hr : (h.view symbols).Ready) : (h.view symbols.exit).Ready :=
  ⟨hr.valid.exit, hr.numbered.exit, by simpa using hr.receiver⟩

private theorem View.Ready.keep (hr : (h.view s.symbols).Ready) (hv : s'.symbols.Valid) (hn : s'.symbols.Numbered)
    (hs : s.symbols.locals ⊆ s'.symbols.locals) : (h.view s'.symbols).Ready := by
  refine ⟨hv, hn, fun hst => ?_⟩
  obtain ⟨l, hl, hrec⟩ := hr.receiver hst
  exact ⟨l, hs hl, hrec⟩

theorem LowersDecl.ready {d : VarDecl} (hr : (h.view s.symbols).Ready) (hd : LowersDecl h s d c s') :
    (h.view s'.symbols).Ready :=
  hr.keep (hd.valid hr.valid) (hd.numbered hr.numbered) hd.locals_subset

theorem LowersStmt.ready {stmt : Stmt} (hr : (h.view s.symbols).Ready) (hs : LowersStmt h s stmt c s') :
    (h.view s'.symbols).Ready :=
  hr.keep (hs.valid hr.valid) (hs.numbered hr.numbered) hs.locals_subset

theorem LowersBlock.ready {stmts : List Stmt} (hr : (h.view s.symbols).Ready) (hb : LowersBlock h s stmts c s') :
    (h.view s'.symbols).Ready :=
  hr.keep (hb.valid hr.valid) (hb.numbered hr.numbered) hb.locals_subset

theorem LowersDecl.uses {d : VarDecl} (hr : (h.view s.symbols).Ready) (hd : LowersDecl h s d c s') :
    Uses s'.symbols.locals h.sig.isStatic c := by
  have hnew {name : String} {ty : Machine.Ty} {l : Local} {symbols : Symbols}
      (hl : s.symbols.declare name ty = .ok (l, symbols)) : l ∈ symbols.locals ∧ 0 < l.slot := by
    rw [(Symbols.locals_declare hl).1]
    obtain ⟨-, rfl, -⟩ := Symbols.declare_eq_ok hl
    exact ⟨by simp, hr.valid.reserved⟩
  cases hd with
  | init _ _ he _ hl =>
    obtain ⟨hm, hpos⟩ := hnew hl
    have hsub := (LowersDecl.init ‹_› ‹_› he ‹_› hl).locals_subset
    exact ((he.reads hr).uses hsub).append (.one ⟨_, hm, rfl, rfl, hpos⟩ nofun)
  | unset _ _ hl =>
    obtain ⟨hm, hpos⟩ := hnew hl
    exact .one ⟨_, hm, rfl, hpos⟩ nofun

mutual

theorem LowersStmt.uses {h s stmt c s'} (hr : (h.view s.symbols).Ready) :
    LowersStmt h s stmt c s' → Uses s'.symbols.locals h.sig.isStatic c
  | .decl hd => hd.uses hr
  | .assign ha => ha.uses hr
  | .print he _ | .ret he _ => ((he.reads hr).uses (List.Subset.refl _)).append (.plain rfl)
  | .leave _ => .plain rfl
  | .effect (t := t) he => by
    refine ((he.reads hr).uses (List.Subset.refl _)).append ?_
    split <;> exact .plain rfl
  | .ifElse hc hy hz => by
    have hry := (hy.ready hr.enter).exit
    have hz' := hz.uses hry.enter
    have hy' := (hy.uses hr.enter).mono (by simpa using hz.locals_subset)
    have hc' := (hc.reads hr).uses (List.Subset.trans hy.locals_subset (by simpa using hz.locals_subset))
    simpa using ifChunk_uses hc' hy' hz'
  | .whileDo hc hb => by
    have hb' := hb.uses hr.enter
    have hc' := (hc.reads hr).uses hb.locals_subset
    simpa using loopChunk_uses hc' hb' (.plain rfl)
  | .forDo hi hc hb hu => by
    have hri := hi.ready hr.enter
    have hrb := (hb.ready hri.enter).exit
    have hu' := hu.uses hrb
    have hbu := hu.locals_subset
    have hiu := List.Subset.trans hb.locals_subset (by simpa using hu.locals_subset)
    have hb' := (hb.uses hri.enter).mono (by simpa using hbu)
    have hc' := (hc.reads hri).uses hiu
    have hi' := (hi.uses hr.enter).mono hiu
    simpa using hi'.append (loopChunk_uses hc' hb' hu')

theorem LowersBlock.uses {h s stmts c s'} (hr : (h.view s.symbols).Ready) :
    LowersBlock h s stmts c s' → Uses s'.symbols.locals h.sig.isStatic c
  | .nil => .plain rfl
  | .cons hs hb => ((hs.uses hr).mono hb.locals_subset).append (hb.uses (hs.ready hr))

end

/-- The symbols that a body starts with are ready for it. -/
theorem initialSymbols_ready {env : Env} {f : Source.FunDecl} {sig : Machine.Signature} {s : Symbols}
    (hsig : signatureOf env f = .ok sig) (h : initialSymbols env f sig = .ok s) :
    ((⟨env, f.name, sig⟩ : Host).view s.enter).Ready := by
  obtain ⟨-, -, -, -, hst, -⟩ := signatureOf_eq_ok hsig
  obtain ⟨hn, params, hparams, -, -⟩ := initialSymbols_slots hsig h
  refine ⟨(initialSymbols_valid h).enter, hn.enter, fun hstatic => ?_⟩
  have hentry : f.isEntry = false := hst.symm.trans hstatic
  refine ⟨⟨(implicitSlot env f).1, 0, (implicitSlot env f).2⟩, ?_, rfl, by simp [implicitSlot, hentry]⟩
  show _ ∈ s.enter.locals
  simp [hparams]

end

end Lower
end WhileStack
