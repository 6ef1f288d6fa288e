import WhileStack.Lower.Program
import Mathlib.Data.List.Forall2

/-! Derivations of code. The relations say which code belongs to an expression or a statement, how many labels have been
used before and behind it, and which slots have been given out. Whatever is lowered has a derivation, so properties of
lowered code are proved by induction on derivations. -/
namespace WhileStack.Lower
open Source (Expr Stmt VarDecl Target BinOp Literal)
open Machine (Code Instr Dest)

def logicOf : BinOp → Option Bool
  | .and => some false
  | .or => some true
  | _ => none

def equalityOf : BinOp → Option Bool
  | .eq => some false
  | .ne => some true
  | _ => none

/-- The label that comes `k` behind the first `n`. -/
def label (n k : Nat) : Machine.Label := ((n + k : Nat) : Int)

theorem label_succ (n : Nat) : label (n + 1) 1 = label n 2 := rfl

theorem lt_label {m n k : Nat} : (m : Int) < label n k ↔ m < n + k := Int.ofNat_lt

theorem label_le {m n k : Nat} : label n k ≤ (m : Int) ↔ n + k ≤ m := Int.ofNat_le

@[simp] theorem label_inj {m n j k : Nat} : label m j = label n k ↔ m + j = n + k := Int.ofNat_inj

/-- A comparison, where `n` labels are in use already. -/
def compareChunk (cond : Machine.Cond) (n : Nat) : Code :=
  [.ifcmp cond (.toLabel (label n 1)), .ldc (.bool false), .goto (.toLabel (label n 2)), .mark (label n 1),
    .ldc (.bool true), .mark (label n 2)]

def logicBranch (isOr : Bool) (d : Dest) : Instr := if isOr then .ifne d else .ifeq d

def logicChunk (isOr : Bool) (n : Nat) (l r : Code) : Code :=
  l ++ [logicBranch isOr (.toLabel (label n 1))] ++ r ++
    [.goto (.toLabel (label n 2)), .mark (label n 1), .ldc (.bool isOr), .mark (label n 2)]

/-- The jump behind the first branch is left out where control never comes there. -/
def ifChunk (n : Nat) (cond yes : Code) (returns : Bool) (no : Code) : Code :=
  cond ++ [.ifeq (.toLabel (label n 1))] ++ yes ++ (if returns then [] else [.goto (.toLabel (label n 2))]) ++
    [.mark (label n 1)] ++ no ++ [.mark (label n 2)]

def loopChunk (n : Nat) (cond body step : Code) : Code :=
  [.mark (label n 1)] ++ cond ++ [.ifeq (.toLabel (label n 2))] ++ body ++ step ++
    [.goto (.toLabel (label n 1)), .mark (label n 2)]

inductive LowersConst : Literal → Machine.Const → Machine.Ty → Prop where
  | bool {b} : LowersConst (.bool b) (.bool b) .boolean
  | int {n} : -0x80000000 ≤ n → n < 0x80000000 → LowersConst (.int n) (.int (Int32.ofInt n)) .int
  | string {s} : LowersConst (.string s) (.string s) .string

/-- Values that are not numbers are compared by structure. -/
inductive LowersEquality (isNe : Bool) (t : Machine.Ty) (n : Nat) : Code → Nat → Prop where
  | structural : t.isReference = true → LowersEquality isNe t n (if isNe then .equals :: notCode else [.equals]) n
  | numeric : t.isReference = false →
    LowersEquality isNe t n (compareChunk (if isNe then .ne else .eq) n) (n + 2)

mutual

inductive LowersExpr (v : View) : Nat → Expr → Code → Machine.Ty → Nat → Prop where
  | const {n a l c t} : LowersConst l c t → layout v.env.aliases a.ty = .ok t →
    LowersExpr v n (.const a l) [.ldc c] t n
  | var {n a name l} : v.symbols.lookup? name = some l → layout v.env.aliases a.ty = .ok l.ty →
    LowersExpr v n (.var a name) (.load l.slot l.ty :: if l.ty.isComposite then [.clone l.ty] else []) l.ty n
  | logic {n n₁ n₂ a op isOr lhs rhs l r} : logicOf op = some isOr → LowersExpr v n lhs l .boolean n₁ →
    LowersExpr v (n₁ + 2) rhs r .boolean n₂ → layout v.env.aliases a.ty = .ok .boolean →
    LowersExpr v n (.binary a op lhs rhs) (logicChunk isOr n₁ l r) .boolean n₂
  | equality {n n₁ n₂ n₃ a op isNe lhs rhs l r c t} : equalityOf op = some isNe → LowersExpr v n lhs l t n₁ →
    t.isVoid = false → LowersExpr v n₁ rhs r t n₂ → LowersEquality isNe t n₂ c n₃ →
    layout v.env.aliases a.ty = .ok .boolean → LowersExpr v n (.binary a op lhs rhs) (l ++ r ++ c) .boolean n₃
  | append {n n₁ n₂ a lhs rhs l r t} : t = .string ∨ (∃ e, t = .list e) → LowersExpr v n lhs l t n₁ →
    LowersExpr v n₁ rhs r t n₂ → layout v.env.aliases a.ty = .ok t →
    LowersExpr v n (.binary a .append lhs rhs) (l ++ r ++ [.append t]) t n₂
  | arith {n n₁ n₂ a op o lhs rhs l r} : arithOf op = some o → LowersExpr v n lhs l .int n₁ →
    LowersExpr v n₁ rhs r .int n₂ → layout v.env.aliases a.ty = .ok .int →
    LowersExpr v n (.binary a op lhs rhs) (l ++ r ++ [.arith o]) .int n₂
  | order {n n₁ n₂ a op cond lhs rhs l r} : orderOf op = some cond → LowersExpr v n lhs l .int n₁ →
    LowersExpr v n₁ rhs r .int n₂ → layout v.env.aliases a.ty = .ok .boolean →
    LowersExpr v n (.binary a op lhs rhs) (l ++ r ++ compareChunk cond n₂) .boolean (n₂ + 2)
  | not {n n' a e c} : LowersExpr v n e c .boolean n' → layout v.env.aliases a.ty = .ok .boolean →
    LowersExpr v n (.unary a .not e) (c ++ notCode) .boolean n'
  | neg {n n' a e c} : LowersExpr v n e c .int n' → layout v.env.aliases a.ty = .ok .int →
    LowersExpr v n (.unary a .neg e) (c ++ [.neg]) .int n'
  | length {n n' a e c t} : t = .string ∨ (∃ u, t = .list u) → LowersExpr v n e c t n' →
    layout v.env.aliases a.ty = .ok .int → LowersExpr v n (.unary a .length e) (c ++ [.length]) .int n'
  /-- A cast to the operand's own type leaves the value alone. -/
  | keep {n n' a e c t} : LowersExpr v n e c t n' → t.isVoid = false → valueLayout v.env.aliases a.ty = .ok t →
    LowersExpr v n (.cast a e) c t n'
  | convert {n n' a e c s t} : LowersExpr v n e c s n' → s.isVoid = false → valueLayout v.env.aliases a.ty = .ok t →
    castKind? s t = some .convert → LowersExpr v n (.cast a e) (c ++ [.convert s t]) t n'
  | call {n n' a f args c sig} : v.env.signatures.lookup f = some sig → sig.isStatic = false →
    LowersArgs v n sig.params args c n' → layout v.env.aliases a.ty = .ok sig.ret →
    LowersExpr v n (.call a f args) (receiverCode v :: c ++ [.call sig]) sig.ret n'
  | index {n n₁ n₂ a source position s p t} : LowersExpr v n source s (.list t) n₁ →
    LowersExpr v n₁ position p .int n₂ → layout v.env.aliases a.ty = .ok t →
    LowersExpr v n (.index a source position) (s ++ p ++ [.listLoad t]) t n₂
  | list {n n' a elems c t} : layout v.env.aliases a.ty = .ok (.list t) →
    LowersArgs v n (List.replicate elems.length t) elems c n' →
    LowersExpr v n (.list a elems) (c ++ [.newList t elems.length]) (.list t) n'
  | record {n n' a fields fs elems c} : layout v.env.aliases a.ty = .ok (.record fs) →
    List.Forall₂ (fun f e => fields.lookup f.1 = some e) fs elems → LowersArgs v n (fs.map Prod.snd) elems c n' →
    LowersExpr v n (.record a fields) (c ++ [.newRecord (.record fs)]) (.record fs) n'
  | field {n n' a source name s fs k t} : LowersExpr v n source s (.record fs) n' →
    Machine.Ty.findField name 0 fs = some (k, t) → layout v.env.aliases a.ty = .ok t →
    LowersExpr v n (.field a source name) (s ++ [.getField name k]) t n'

inductive LowersArgs (v : View) : Nat → List Machine.Ty → List Expr → Code → Nat → Prop where
  | nil {n} : LowersArgs v n [] [] [] n
  | cons {n n₁ n₂ t ts e es c cs} : LowersExpr v n e c t n₁ → t.isVoid = false → LowersArgs v n₁ ts es cs n₂ →
    LowersArgs v n (t :: ts) (e :: es) (c ++ cs) n₂

end

inductive LowersTarget (v : View) : Nat → Expr → Code → Machine.Ty → Nat → Prop where
  | var {n a name l} : v.symbols.lookup? name = some l → layout v.env.aliases a.ty = .ok l.ty →
    LowersTarget v n (.var a name) [.load l.slot l.ty] l.ty n
  | index {n n₁ n₂ a source position s p t} : LowersTarget v n source s (.list t) n₁ →
    LowersExpr v n₁ position p .int n₂ → layout v.env.aliases a.ty = .ok t →
    LowersTarget v n (.index a source position) (s ++ p ++ [.listLoad t]) t n₂
  | field {n n' a source name s fs k t} : LowersTarget v n source s (.record fs) n' →
    Machine.Ty.findField name 0 fs = some (k, t) → layout v.env.aliases a.ty = .ok t →
    LowersTarget v n (.field a source name) (s ++ [.getField name k]) t n'
  | value {n n' e c t} : Target.ofExpr? e = none → LowersExpr v n e c t n' → t.isVoid = false →
    LowersTarget v n e c t n'

/-- What expressions of a function see once some slots have been given out. -/
abbrev Host.view (h : Host) (symbols : Symbols) : View := ⟨h.env, symbols, h.sig.isStatic⟩

inductive LowersDecl (h : Host) (s : State) (d : VarDecl) : Code → State → Prop where
  | init {e c n t l symbols} : d.init = some e → valueLayout h.env.aliases d.ty = .ok t →
    LowersExpr (h.view s.symbols) s.labels e c t n → t.isVoid = false → s.symbols.declare d.name t = .ok (l, symbols) →
    LowersDecl h s d (c ++ [.store l.slot l.ty]) ⟨n, symbols⟩
  | unset {t l symbols} : d.init = none → valueLayout h.env.aliases d.ty = .ok t →
    s.symbols.declare d.name t = .ok (l, symbols) → LowersDecl h s d [.clear l.slot] ⟨s.labels, symbols⟩

inductive LowersAssign (v : View) (n : Nat) (value : Expr) : Target → Code → Nat → Prop where
  | var {n' a name c l} : LowersExpr v n value c l.ty n' → l.ty.isVoid = false → v.symbols.lookup? name = some l →
    LowersAssign v n value (.var a name) (c ++ [.store l.slot l.ty]) n'
  | index {n₁ n₂ n₃ a source position c s p t} : LowersExpr v n value c t n₁ → t.isVoid = false →
    LowersTarget v n₁ source s (.list t) n₂ → LowersExpr v n₂ position p .int n₃ →
    LowersAssign v n value (.index a source position) (c ++ s ++ p ++ [.listStore t]) n₃
  | field {n₁ n₂ a source name c s fs k t} : LowersExpr v n value c t n₁ → t.isVoid = false →
    LowersTarget v n₁ source s (.record fs) n₂ → Machine.Ty.findField name 0 fs = some (k, t) →
    LowersAssign v n value (.field a source name) (c ++ s ++ [.putField name k]) n₂

mutual

inductive LowersStmt (h : Host) : State → Stmt → Code → State → Prop where
  | decl {s d c s'} : LowersDecl h s d c s' → LowersStmt h s (.decl d) c s'
  | assign {s loc target value c n} : LowersAssign (h.view s.symbols) s.labels value target c n →
    LowersStmt h s (.assign loc target value) c ⟨n, s.symbols⟩
  | print {s loc value c t n} : LowersExpr (h.view s.symbols) s.labels value c t n → t.isVoid = false →
    LowersStmt h s (.print loc value) (c ++ [.print t]) ⟨n, s.symbols⟩
  | leave {s loc} : h.sig.ret = .void → LowersStmt h s (.ret loc none) [.ret .void] s
  | ret {s loc value c n} : LowersExpr (h.view s.symbols) s.labels value c h.sig.ret n → h.sig.ret.isVoid = false →
    LowersStmt h s (.ret loc (some value)) (c ++ [.ret h.sig.ret]) ⟨n, s.symbols⟩
  | effect {s loc value c t n} : LowersExpr (h.view s.symbols) s.labels value c t n →
    LowersStmt h s (.expr loc value) (c ++ if t.isVoid then [] else [.pop t]) ⟨n, s.symbols⟩
  | ifElse {s loc cond yes no c y z n s₁ s₂} : LowersExpr (h.view s.symbols) s.labels cond c .boolean n →
    LowersBlock h ⟨n + 2, s.symbols.enter⟩ yes y s₁ → LowersBlock h ⟨s₁.labels, s₁.symbols.exit.enter⟩ no z s₂ →
    LowersStmt h s (.ifElse loc cond yes no) (ifChunk n c y (Stmt.allReturn yes) z) ⟨s₂.labels, s₂.symbols.exit⟩
  | whileDo {s loc cond body c b n s₁} : LowersExpr (h.view s.symbols) (s.labels + 2) cond c .boolean n →
    LowersBlock h ⟨n, s.symbols.enter⟩ body b s₁ →
    LowersStmt h s (.whileDo loc cond body) (loopChunk s.labels c b []) ⟨s₁.labels, s₁.symbols.exit⟩
  | forDo {s loc init cond step body i c b u n s₁ s₂ s₃} : LowersDecl h ⟨s.labels, s.symbols.enter⟩ init i s₁ →
    LowersExpr (h.view s₁.symbols) (s₁.labels + 2) cond c .boolean n → LowersBlock h ⟨n, s₁.symbols.enter⟩ body b s₂ →
    LowersStmt h ⟨s₂.labels, s₂.symbols.exit⟩ step u s₃ →
    LowersStmt h s (.forDo loc init cond step body) (i ++ loopChunk s₁.labels c b u) ⟨s₃.labels, s₃.symbols.exit⟩

inductive LowersBlock (h : Host) : State → List Stmt → Code → State → Prop where
  | nil {s} : LowersBlock h s [] [] s
  | cons {s₁ s₂ s₃ stmt rest c cs} : LowersStmt h s₁ stmt c s₂ → LowersBlock h s₂ rest cs s₃ →
    LowersBlock h s₁ (stmt :: rest) (c ++ cs) s₃

end

end WhileStack.Lower
