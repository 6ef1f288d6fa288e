import WhileStack.Proofs.Simulation.Expr
import WhileStack.Proofs.Tree.Path

/-! Targets of assignments. Their code leaves a place inside a variable on the stack, and what is stored there changes
this variable alone. -/
namespace WhileStack.Simulation
open Source (Expr Target VarDecl)
open Machine (Program Code Ty realCount realCount_append)
open Lower (LowersExpr LowersTarget Symbols)
open OnTrees (State Operand)
open OnTrees.Operand (own)
open Reference (Spot evalExpr evalTarget setVar lookupIn)

/-- A list or record of an assignment: where it is, and what stands for it on the stack. -/
inductive Located (symbols : Symbols) (L : List Tree) (x : Tree) (ty : Ty) : Spot → Operand → Prop where
  | loose : Located symbols L x ty none (own x)
  | inside {name path l root} : symbols.lookup? name = some l → L[l.slot]? = some root → HasTy root l.ty →
    root.get? path = some x → Leads l.ty path ty → Located symbols L x ty (some (name, path)) (.place l.slot path)

namespace Located
variable {symbols : Symbols} {L : List Tree} {x u : Tree} {ty ty' : Ty} {spot : Spot} {y : Operand} {i : Nat}

theorem read (h : Located symbols L x ty spot y) : y.read L = some x := by
  cases h with
  | loose => rfl
  | inside _ hL _ hx _ => simp [OnTrees.Operand.read, hL, hx]

theorem child {s : Shape} {ts : List Tree} (h : Located symbols L (.node s ts) ty spot y) (hu : ts[i]? = some u)
    (hl : Leads ty [i] ty') (hn : u.isNode = true) : Located symbols L u ty' (spot.child i) (y.child i u) := by
  cases h with
  | loose => exact .loose
  | inside hs hL hr hx hp =>
    simp only [OnTrees.Operand.child, OnTrees.Operand.found, hn, if_true]
    refine .inside hs hL hr ?_ (hp.append hl)
    simp [Tree.get?_append, hx, Tree.get?, hu]

/-- A child is replaced, in the slot and in the variable. -/
theorem write {scopes : List Reference.Scope} (h : Located symbols L x ty spot y) (hv : symbols.Valid)
    (hs : Scoped L symbols scopes) (hl : Leads ty [i] ty') (hu : HasTy u ty') :
    Scoped (y.write L i u) symbols (spot.write i u scopes) ∧ (y.write L i u).length = L.length ∧
      (y.write L i u)[0]? = L[0]? := by
  cases h with
  | loose => exact ⟨hs, rfl, rfl⟩
  | @inside name path l root hlook hL hr _ hp =>
    obtain ⟨root', hroot, hb⟩ := hs.lookup hlook
    obtain rfl : root = root' := Option.some.inj (hL.symm.trans hb.slot_eq)
    have hlt := (List.getElem?_eq_some_iff.mp hL).1
    have hpos := (hv.bound _ (Symbols.mem_of_lookup? hlook)).1
    obtain ⟨scopes', hset, hs'⟩ := hs.set hv hlook hlt (.inr (hr.put (hp.append hl) hu))
    have hw : L.modify l.slot (fun s => s.put (path ++ [i]) u) = L.set l.slot (root.put (path ++ [i]) u) := by
      rw [List.modify_eq_set_getElem?, hL]
      rfl
    simp only [OnTrees.Operand.write, Spot.write, hroot, hset, Option.getD_some, hw]
    exact ⟨hs', by simp, List.getElem?_set_ne (Nat.ne_of_gt hpos)⟩

end Located

section
variable {p : Program} {rounds : Nat} {site : Site} {L : List Tree} {w : Reference.View} {v : Lower.View}

/-- Anything but a variable or a part of one is evaluated like any expression. -/
private theorem evalTarget_value {e : Expr} (h : Target.ofExpr? e = none) :
    evalTarget w e = evalExpr w e >>= fun t => pure (none, t) := by
  cases e <;> simp [Target.ofExpr?] at h <;> rfl

/-- A list or record that an assignment writes into is on the stack, as a place where it is inside a variable. -/
def YieldsPlace (site : Site) (symbols : Symbols) (L : List Tree) (S : List Operand) (n : Nat) (ty : Ty) (x : Spot × Tree)
    (o : String) (s : State) : Prop :=
  HasTy x.2 ty ∧ ∃ y k, Located symbols L x.2 ty x.1 y ∧ s = site.state o k L (y :: S) n

theorem target_meets {n n' : Nat} {e : Expr} {c : Code} {t : Ty} (r : Ready p rounds site v w L)
    (h : LowersTarget v n e c t n') (ht : t.isComposite = true) (o : String) (k : Nat) (S : List Operand) (pc : Nat)
    (hp : site.Has pc c) :
    Meets p rounds (site.state o k L S pc) (evalTarget w e o) (YieldsPlace site v.symbols L S (pc + realCount c) t) := by
  induction h generalizing o k S pc with
  | @var a name l hl _ =>
    obtain ⟨x, hx, hb⟩ := r.scopes.lookup hl
    rcases hb.typed with rfl | hty
    · have he : evalTarget w (.var a name) o = .error (.fault ⟨.uninitialized, w.function, .variableName name⟩) o := by
        simp [evalTarget, Reference.readVar, hx]
      rw [he]
      exact site.fails hp.1 (.unset hb.slot_eq) ⟨rfl, r.function_eq, fun h => absurd rfl h⟩
    · have hnode := hty.isNode_eq.trans ht
      have hne : x ≠ .null := by
        rintro rfl
        cases hnode
      have he : evalTarget w (.var a name) o = .ok (some (name, []), x) o := by
        simp [evalTarget, Reference.readVar_eq hx hne]
      rw [he]
      refine site.act hp.1 (.load hb.slot_eq hne) (.ok ⟨hty, _, k, ?_, rfl⟩)
      simp only [OnTrees.Operand.found, hnode, if_true]
      exact .inside hl hb.slot_eq hty rfl .nil
  | index hs hpos _ ih =>
    obtain ⟨hp, hi⟩ := hp.last rfl rfl
    obtain ⟨hps, hpp⟩ := hp.append
    rw [realCount_append, ← Nat.add_assoc] at hi
    rw [Machine.realCount_snoc rfl, realCount_append, ← Nat.add_assoc, ← Nat.add_assoc]
    refine (ih rfl o k S pc hps).bind ?_
    rintro x o s ⟨hx, y, k, hy, hs⟩
    obtain ⟨spot, x⟩ := x
    cases hx with
    | @list ts _ hts =>
      rw [hs]
      refine element_meets r.function_eq (expr_meets r o k _ _ hpp hpos) hi (fun j e o k he => .listLoad hy.read he) ?_
      intro j m o k hm
      have hlt := elementAt_lt hm
      have hget := List.getElem?_eq_getElem hlt
      have hty := hts _ (List.getElem_mem hlt)
      have hval : ts.getD m .null = ts[m] := by rw [List.getD_eq_getElem?_getD, hget, Option.getD_some]
      refine site.act hi (.listLoad hy.read hm hget) (.ok ?_)
      simp only [hval]
      exact ⟨hty, _, k, hy.child hget (.elem .nil) (hty.isNode_eq.trans ht), rfl⟩
  | field hs hf _ ih =>
    obtain ⟨hp, hi⟩ := hp.last rfl rfl
    rw [Machine.realCount_snoc rfl, ← Nat.add_assoc]
    refine (ih rfl o k S pc hp).bind ?_
    rintro x o s ⟨hx, y, k, hy, hs⟩
    obtain ⟨spot, x⟩ := x
    cases hx with
    | record hts =>
      obtain ⟨j, x, hk, hfind, hn, hj, hx⟩ := HasTy.findField_ok hts hf
      rw [Nat.zero_add] at hk
      subst hk
      rw [hs]
      simp only [fieldOf_eq hfind, pure_bind]
      exact site.act hi (.getField hy.read (by simp [hn]) hj)
        (.ok ⟨hx, _, k, hy.child hj (.field hn .nil) (hx.isNode_eq.trans ht), rfl⟩)
  | value he hl hv =>
    rw [evalTarget_value he]
    refine (expr_meets r o k S pc hp hl).bind ?_
    rintro x o s ⟨hx, k, hs⟩
    rw [hs, pushed_eq hv]
    exact .ok ⟨hx, _, k, .loose, rfl⟩

end
end WhileStack.Simulation
