import WhileStack.Proofs.Lower.Chunks
import WhileStack.Proofs.Lower.Inversion
import WhileStack.Proofs.Source.Place

/-! The course of lowering: in which state each place of a body is lowered. -/
namespace WhileStack.Lower
open Source (Expr Stmt VarDecl Turn Place Part)
open Machine (Code)

namespace Symbols

/-- The open scopes, the innermost first. -/
def scopes (s : Symbols) : List Scope := s.inner :: s.outer

@[simp] theorem scopes_enter (s : Symbols) : s.enter.scopes = [] :: s.scopes := rfl

theorem Grows.scopes_exit {s s' : Symbols} (g : s.enter.Grows s') : s'.exit.scopes = s.scopes := by
  obtain ⟨hi, ho, -⟩ := g.exit_eq
  rw [scopes, hi, ho, scopes]

end Symbols

section
variable {h : Host} {s s' : State} {c : Code}

/-- A declaration puts its name and the slot it is given into the innermost scope. -/
theorem LowersDecl.scopes_eq {d : VarDecl} (hd : LowersDecl h s d c s') :
    ∃ l, s'.symbols.scopes = ((d.name, l) :: s.symbols.inner) :: s.symbols.outer := by
  cases hd with
  | init _ _ _ _ hl =>
    obtain ⟨-, -, rfl⟩ := Symbols.declare_eq_ok hl
    exact ⟨_, rfl⟩
  | unset _ _ hl =>
    obtain ⟨-, -, rfl⟩ := Symbols.declare_eq_ok hl
    exact ⟨_, rfl⟩

/-- Any other statement leaves the scopes as they were. -/
theorem LowersStmt.scopes_eq {stmt : Stmt} (hs : LowersStmt h s stmt c s') (hd : stmt.isDecl = false) :
    s'.symbols.scopes = s.symbols.scopes := by
  cases hs with
  | decl => cases hd
  | assign | print | leave | ret | effect => rfl
  | ifElse _ hy hz => exact hz.grows.scopes_exit.trans hy.grows.scopes_exit
  | whileDo _ hb => exact hb.grows.scopes_exit
  | forDo hi _ hb hu => exact ((hi.grows.trans hb.grows.exit).trans hu.grows).scopes_exit

end

/-- The step of a loop that may have none. -/
def stepCode (h : Host) : Option Stmt → StmtLowering Code
  | none => pure []
  | some s => stmtCode h s

/-- Lowering of a body from a state on comes to a place in a state. A loop is lowered once, however many rounds it has:
the condition, then the body in a scope of its own, then the step outside that scope. -/
inductive Lowered (h : Host) (body : List Stmt) (start : State) : Place → Part → State → Prop where
  | start : Lowered h body start [] (.block 0 body) start
  | item {p i stmt rest s} : Lowered h body start p (.block i (stmt :: rest)) s →
    Lowered h body start (.item i :: p) (.stmt stmt) s
  | next {p i stmt rest s c s'} : Lowered h body start p (.block i (stmt :: rest)) s →
    stmtCode h stmt s = .ok (c, s') → Lowered h body start p (.block (i + 1) rest) s'
  | yes {p l e yes no s c n} : Lowered h body start p (.stmt (.ifElse l e yes no)) s →
    exprCode (h.view s.symbols) e s.labels = .ok ((c, .boolean), n) →
    Lowered h body start (.yes :: p) (.block 0 yes) ⟨n + 2, s.symbols.enter⟩
  | no {p l e yes no s c n y s'} : Lowered h body start p (.stmt (.ifElse l e yes no)) s →
    exprCode (h.view s.symbols) e s.labels = .ok ((c, .boolean), n) →
    blockCode h yes ⟨n + 2, s.symbols.enter⟩ = .ok (y, s') →
    Lowered h body start (.no :: p) (.block 0 no) ⟨s'.labels, s'.symbols.exit.enter⟩
  | whileLoop {p l e b s k} : Lowered h body start p (.stmt (.whileDo l e b)) s →
    Lowered h body start p (.loop e none b k) s
  | forInit {p l d e u b s} : Lowered h body start p (.stmt (.forDo l d e u b)) s →
    Lowered h body start (.init :: p) (.decl d) ⟨s.labels, s.symbols.enter⟩
  | forLoop {p l d e u b s c s' k} : Lowered h body start p (.stmt (.forDo l d e u b)) s →
    declCode h d ⟨s.labels, s.symbols.enter⟩ = .ok (c, s') → Lowered h body start p (.loop e (some u) b k) s'
  | cond {p e u b k s} : Lowered h body start p (.loop e u b k) s →
    Lowered h body start (.cond :: p) (.cond e) ⟨s.labels + 2, s.symbols⟩
  | body {p e u b k s c n} : Lowered h body start p (.loop e u b k) s →
    exprCode (h.view s.symbols) e (s.labels + 2) = .ok ((c, .boolean), n) →
    Lowered h body start (.body :: p) (.block 0 b) ⟨n, s.symbols.enter⟩
  | step {p e u b k s c n x s'} : Lowered h body start p (.loop e (some u) b k) s →
    exprCode (h.view s.symbols) e (s.labels + 2) = .ok ((c, .boolean), n) →
    blockCode h b ⟨n, s.symbols.enter⟩ = .ok (x, s') →
    Lowered h body start (.step :: p) (.stmt u) ⟨s'.labels, s'.symbols.exit⟩

/-- What stands at a place can be lowered. -/
def Accepts (h : Host) (s : State) : Part → Prop
  | .block _ rest => ∃ c s', blockCode h rest s = .ok (c, s')
  | .stmt stmt => ∃ c s', stmtCode h stmt s = .ok (c, s')
  | .decl d => ∃ c s', declCode h d s = .ok (c, s')
  | .cond e => ∃ c n, exprCode (h.view s.symbols) e s.labels = .ok ((c, .boolean), n)
  | .loop e u b _ => ∃ c s', loopCode h e (inScope (blockCode h b)) (stepCode h u) s = .ok (c, s')

/-- Parts of one kind; of a block, with equally many statements gone. -/
def SameKind : Part → Part → Prop
  | .block i _, .block j _ => i = j
  | .stmt _, .stmt _ => True
  | .decl _, .decl _ => True
  | .cond _, .cond _ => True
  | .loop _ _ _ m, .loop _ _ _ n => m = n
  | _, _ => False

section
variable {h : Host} {body : List Stmt} {start s s' : State} {p : Place} {part part' : Part}

theorem SameKind.refl (part : Part) : SameKind part part := by
  cases part <;> first | rfl | trivial

/-- In a body that is lowered every place is. -/
theorem Lowered.accepts (hb : ∃ c s', blockCode h body start = .ok (c, s')) (hl : Lowered h body start p part s) :
    Accepts h s part := by
  induction hl with
  | start => exact hb
  | item _ ih =>
    obtain ⟨c, s', hc⟩ := ih
    obtain ⟨c₁, s₁, c₂, hs, -, -⟩ := blockCode_cons_eq_ok hc
    exact ⟨c₁, s₁, hs⟩
  | next _ hs ih =>
    obtain ⟨c, s', hc⟩ := ih
    obtain ⟨c₁, s₁, c₂, hs', hr, -⟩ := blockCode_cons_eq_ok hc
    cases hs.symm.trans hs'
    exact ⟨c₂, s', hr⟩
  | yes _ he ih =>
    obtain ⟨c, s', hc⟩ := ih
    obtain ⟨cc, n, y, s₁, z, s₂, he', hy, -, -, -⟩ := ifElse_eq_ok hc
    cases he.symm.trans he'
    exact ⟨y, s₁, hy⟩
  | no _ he hy ih =>
    obtain ⟨c, s', hc⟩ := ih
    obtain ⟨cc, n, y, s₁, z, s₂, he', hy', hz, -, -⟩ := ifElse_eq_ok hc
    cases he.symm.trans he'
    cases hy.symm.trans hy'
    exact ⟨z, s₂, hz⟩
  | whileLoop _ ih =>
    obtain ⟨c, s', hc⟩ := ih
    exact ⟨c, s', by simpa only [stmtCode, stepCode] using hc⟩
  | forInit _ ih =>
    obtain ⟨c, s', hc⟩ := ih
    obtain ⟨i, s₁, l, s₂, hi, -, -, -⟩ := forDo_eq_ok hc
    exact ⟨i, s₁, hi⟩
  | forLoop _ hd ih =>
    obtain ⟨c, s', hc⟩ := ih
    obtain ⟨i, s₁, l, s₂, hi, hl, -, -⟩ := forDo_eq_ok hc
    cases hd.symm.trans hi
    exact ⟨l, s₂, hl⟩
  | cond _ ih =>
    obtain ⟨c, s', hc⟩ := ih
    obtain ⟨cc, n, b, s₁, u, he, -, -, -⟩ := loopCode_eq_ok hc
    exact ⟨cc, n, he⟩
  | body _ he ih =>
    obtain ⟨c, s', hc⟩ := ih
    obtain ⟨cc, n, b, s₁, u, he', hb, -, -⟩ := loopCode_eq_ok hc
    cases he.symm.trans he'
    obtain ⟨s₂, hb, -⟩ := inScope_eq_ok.mp hb
    exact ⟨b, s₂, hb⟩
  | step _ he hb ih =>
    obtain ⟨c, s', hc⟩ := ih
    obtain ⟨cc, n, b, s₁, u, he', hb', hu, -⟩ := loopCode_eq_ok hc
    cases he.symm.trans he'
    obtain ⟨s₂, hb₂, rfl⟩ := inScope_eq_ok.mp hb'
    cases hb.symm.trans hb₂
    exact ⟨u, s', hu⟩

/-- The rounds that are left make no difference. -/
theorem Lowered.rounds {e : Expr} {u : Option Stmt} {b : List Stmt} {k : Nat} (k' : Nat)
    (hl : Lowered h body start p (.loop e u b k) s) : Lowered h body start p (.loop e u b k') s := by
  cases hl with
  | whileLoop hl => exact .whileLoop hl
  | forLoop hl hd => exact .forLoop hl hd

/-- A place is lowered in one state. -/
theorem Lowered.unique (hl : Lowered h body start p part s) (hl' : Lowered h body start p part' s')
    (hk : SameKind part part') : part = part' ∧ s = s' := by
  induction hl generalizing part' s' with
  | start =>
    cases hl' with
    | start => exact ⟨rfl, rfl⟩
    | next | whileLoop | forLoop => cases hk
  | item _ ih =>
    cases hl' with
    | item hl' =>
      obtain ⟨he, rfl⟩ := ih hl' rfl
      cases he
      exact ⟨rfl, rfl⟩
    | next | whileLoop | forLoop => cases hk
  | next _ hs ih =>
    cases hl' with
    | next hl' hs' =>
      cases hk
      obtain ⟨he, rfl⟩ := ih hl' rfl
      cases he
      cases hs.symm.trans hs'
      exact ⟨rfl, rfl⟩
    | _ => cases hk
  | yes _ hc ih =>
    cases hl' with
    | yes hl' hc' =>
      obtain ⟨he, rfl⟩ := ih hl' trivial
      cases he
      cases hc.symm.trans hc'
      exact ⟨rfl, rfl⟩
    | next | whileLoop | forLoop => cases hk
  | no _ hc hy ih =>
    cases hl' with
    | no hl' hc' hy' =>
      obtain ⟨he, rfl⟩ := ih hl' trivial
      cases he
      cases hc.symm.trans hc'
      cases hy.symm.trans hy'
      exact ⟨rfl, rfl⟩
    | next | whileLoop | forLoop => cases hk
  | whileLoop _ ih =>
    cases hl' with
    | whileLoop hl' =>
      cases hk
      obtain ⟨he, rfl⟩ := ih hl' trivial
      cases he
      exact ⟨rfl, rfl⟩
    | forLoop hl' _ => cases (ih hl' trivial).1
    | _ => cases hk
  | forInit _ ih =>
    cases hl' with
    | forInit hl' =>
      obtain ⟨he, rfl⟩ := ih hl' trivial
      cases he
      exact ⟨rfl, rfl⟩
    | next | whileLoop | forLoop => cases hk
  | forLoop _ hd ih =>
    cases hl' with
    | forLoop hl' hd' =>
      cases hk
      obtain ⟨he, rfl⟩ := ih hl' trivial
      cases he
      cases hd.symm.trans hd'
      exact ⟨rfl, rfl⟩
    | whileLoop hl' => cases (ih hl' trivial).1
    | _ => cases hk
  | cond hl ih =>
    cases hl' with
    | cond hl' =>
      obtain ⟨he, rfl⟩ := ih (hl'.rounds _) rfl
      cases he
      exact ⟨rfl, rfl⟩
    | next | whileLoop | forLoop => cases hk
  | body _ hc ih =>
    cases hl' with
    | body hl' hc' =>
      obtain ⟨he, rfl⟩ := ih (hl'.rounds _) rfl
      cases he
      cases hc.symm.trans hc'
      exact ⟨rfl, rfl⟩
    | next | whileLoop | forLoop => cases hk
  | step _ hc hb ih =>
    cases hl' with
    | step hl' hc' hb' =>
      obtain ⟨he, rfl⟩ := ih (hl'.rounds _) rfl
      cases he
      cases hc.symm.trans hc'
      cases hb.symm.trans hb'
      exact ⟨rfl, rfl⟩
    | next | whileLoop | forLoop => cases hk

end
end WhileStack.Lower
