import WhileStack.Datum.Printer
import WhileStack.Datum.Reader
import WhileStack.Source.Program

/-! Programs from data. An expression is a list of a keyword, its type and its operands; notes `line` and `col`
replace the place of a list in the text. -/
namespace WhileStack.Source

inductive DecodeCause where
  | notProgram
  | operands (head : String) (count : Nat)
  | notSymbol (kind : String)
  | notDeclaration (d : Datum)
  | notParams
  | notParam
  | notType (d : Datum)
  | notFieldType
  | duplicateField (name : String)
  | notBlock
  | notStatement (d : Datum)
  | notAssignable (head : String)
  | notLoopDecl
  | notTypedExpr (d : Datum)
  | notExpr (d : Datum)
  | notLiteral (d : Datum)
  | notFieldValue

structure DecodeError where
  pos : Datum.Pos
  cause : DecodeCause

def DecodeCause.message : DecodeCause → String
  | notProgram => "expected (program ...)"
  | operands head count => "malformed (" ++ head ++ " ...): " ++ toString count ++ " operands"
  | notSymbol kind => "expected symbol, got " ++ kind
  | notDeclaration d => "expected declaration, got " ++ d.render
  | notParams => "expected parameter list"
  | notParam => "expected (name type) parameter"
  | notType d => "expected type, got " ++ d.render
  | notFieldType => "expected (name type) field"
  | duplicateField name => "duplicate field " ++ name
  | notBlock => "expected (block ...)"
  | notStatement d => "expected statement, got " ++ d.render
  | notAssignable head => head ++ " is not assignable"
  | notLoopDecl => "expected (decl ...) in for initializer"
  | notTypedExpr d => "expected typed expression, got " ++ d.render
  | notExpr d => "expected expression, got " ++ d.render
  | notLiteral d => "expected literal, got " ++ d.render
  | notFieldValue => "expected (field value) initializer"

def DecodeError.message (e : DecodeError) : String :=
  e.pos.text ++ ": " ++ e.cause.message

abbrev Decoded := Except DecodeError

def refuse {α : Type} (d : Datum) (cause : DecodeCause) : Decoded α := .error ⟨d.pos, cause⟩

/-- The refusal of a form that has the wrong number of operands. -/
def refuseOperands {α : Type} (d : Datum) : Decoded α :=
  refuse d (.operands d.head (d.items.length - 1))

def symbolOf : Datum → Decoded String
  | .symbol _ s => .ok s
  | d => refuse d (.notSymbol d.kindName)

/-- The place of a form: its note `line`, with `col` beside it, goes before its place in the text. -/
def locOf (d : Datum) : Loc :=
  match (d.note? "line").bind Datum.integer? with
  | some line => ⟨line, ((d.note? "col").bind Datum.integer?).getD 0⟩
  | none => ⟨d.pos.line, d.pos.col⟩

mutual

def tyOf : Datum → Decoded Ty
  | .symbol _ s => .ok (Ty.ofSymbol s)
  | .list p (.symbol q "list" :: args) notes =>
    match args with
    | [elem] => do .ok (.list (← tyOf elem))
    | _ => refuseOperands (.list p (.symbol q "list" :: args) notes)
  | .list _ (.symbol _ "record" :: fields) _ => do .ok (.record (← fieldTysOf [] fields))
  | d => refuse d (.notType d)

/-- Record fields; `seen` holds the names of those before. -/
def fieldTysOf (seen : List String) : List Datum → Decoded (List (String × Ty))
  | [] => .ok []
  | .list p [name, ty] notes :: rest => do
    let n ← symbolOf name
    if n ∈ seen then refuse (.list p [name, ty] notes) (.duplicateField n)
    let t ← tyOf ty
    .ok ((n, t) :: (← fieldTysOf (n :: seen) rest))
  | d :: _ => refuse d .notFieldType

end

def literalOf : Datum → Decoded Literal
  | .integer _ _ n => .ok (.int n)
  | .string _ s => .ok (.string s)
  | .symbol p s =>
    if s = "true" then .ok (.bool true)
    else if s = "false" then .ok (.bool false)
    else refuse (.symbol p s) (.notLiteral (.symbol p s))
  | d => refuse d (.notLiteral d)

mutual

def exprOf : Datum → Decoded Expr
  | .list p (.symbol q head :: ty :: operands) notes => do
    let d := Datum.list p (.symbol q head :: ty :: operands) notes
    let attr : Attr := ⟨← tyOf ty, locOf d⟩
    match head, operands with
    | "const", [value] => .ok (.const attr (← literalOf value))
    | "const", _ => refuseOperands d
    | "var", [name] => .ok (.var attr (← symbolOf name))
    | "var", _ => refuseOperands d
    | "binary", [op, lhs, rhs] =>
      let o ← symbolOf op
      let l ← exprOf lhs
      .ok (.binary attr (BinOp.ofSymbol o) l (← exprOf rhs))
    | "binary", _ => refuseOperands d
    | "unary", [op, operand] =>
      let o ← symbolOf op
      .ok (.unary attr (UnOp.ofSymbol o) (← exprOf operand))
    | "unary", _ => refuseOperands d
    | "cast", [operand] => .ok (.cast attr (← exprOf operand))
    | "cast", _ => refuseOperands d
    | "invoke", name :: args =>
      let n ← symbolOf name
      .ok (.call attr n (← exprsOf args))
    | "invoke", [] => refuseOperands d
    | "index", [source, position] =>
      let s ← exprOf source
      .ok (.index attr s (← exprOf position))
    | "index", _ => refuseOperands d
    | "newlist", elems => .ok (.list attr (← exprsOf elems))
    | "newrecord", fields => .ok (.record attr (← fieldValuesOf fields))
    | "field", [source, name] =>
      let s ← exprOf source
      .ok (.field attr s (← symbolOf name))
    | "field", _ => refuseOperands d
    | _, _ => refuse d (.notExpr d)
  | d => refuse d (.notTypedExpr d)

def exprsOf : List Datum → Decoded (List Expr)
  | [] => .ok []
  | d :: ds => do
    let e ← exprOf d
    .ok (e :: (← exprsOf ds))

def fieldValuesOf : List Datum → Decoded (List (String × Expr))
  | [] => .ok []
  | .list _ [name, value] _ :: rest => do
    let n ← symbolOf name
    let e ← exprOf value
    .ok ((n, e) :: (← fieldValuesOf rest))
  | d :: _ => refuse d .notFieldValue

end

def varDeclOf (d : Datum) : Decoded VarDecl :=
  match d.items with
  | [_, ty, name] => do
    let t ← tyOf ty
    .ok ⟨locOf d, t, ← symbolOf name, none⟩
  | [_, ty, name, init] => do
    let t ← tyOf ty
    let n ← symbolOf name
    .ok ⟨locOf d, t, n, some (← exprOf init)⟩
  | _ => refuseOperands d

def targetOf (d : Datum) : Decoded Target := do
  match Target.ofExpr? (← exprOf d) with
  | some t => .ok t
  | none => refuse d (.notAssignable d.head)

mutual

def stmtOf : Datum → Decoded Stmt
  | .list p (.symbol q head :: operands) notes =>
    let d := Datum.list p (.symbol q head :: operands) notes
    let loc := locOf d
    match head, operands with
    | "decl", _ => do .ok (.decl (← varDeclOf d))
    | "assign", [target, value] => do
      let t ← targetOf target
      .ok (.assign loc t (← exprOf value))
    | "assign", _ => refuseOperands d
    | "print", [value] => do .ok (.print loc (← exprOf value))
    | "print", _ => refuseOperands d
    | "expr", [value] => do .ok (.expr loc (← exprOf value))
    | "expr", _ => refuseOperands d
    | "if", [cond, yes] => do
      let c ← exprOf cond
      .ok (.ifElse loc c (← blockOf yes) [])
    | "if", [cond, yes, no] => do
      let c ← exprOf cond
      let y ← blockOf yes
      .ok (.ifElse loc c y (← blockOf no))
    | "if", _ => refuseOperands d
    | "while", [cond, body] => do
      let c ← exprOf cond
      .ok (.whileDo loc c (← blockOf body))
    | "while", _ => refuseOperands d
    | "for", [init, cond, step, body] => do
      if init.head ≠ "decl" then refuse init .notLoopDecl
      let i ← varDeclOf init
      let c ← exprOf cond
      let s ← stmtOf step
      .ok (.forDo loc i c s (← blockOf body))
    | "for", _ => refuseOperands d
    | "return", [] => .ok (.ret loc none)
    | "return", [value] => do .ok (.ret loc (some (← exprOf value)))
    | "return", _ => refuseOperands d
    | _, _ => refuse d (.notStatement d)
  | d => refuse d (.notStatement d)

def blockOf : Datum → Decoded (List Stmt)
  | .list _ (.symbol _ "block" :: stmts) _ => stmtsOf stmts
  | d => refuse d .notBlock

def stmtsOf : List Datum → Decoded (List Stmt)
  | [] => .ok []
  | d :: ds => do
    let s ← stmtOf d
    .ok (s :: (← stmtsOf ds))

end

def paramOf : Datum → Decoded (String × Ty)
  | .list _ [name, ty] _ => do
    let n ← symbolOf name
    .ok (n, ← tyOf ty)
  | d => refuse d .notParam

def paramsOf : Datum → Decoded (List (String × Ty))
  | .list _ params _ => params.mapM paramOf
  | d => refuse d .notParams

def declOf (d : Datum) : Decoded Decl :=
  match d.head, d.items with
  | "fun", _ :: name :: ret :: params :: body => do
    let n ← symbolOf name
    let r ← tyOf ret
    let ps ← paramsOf params
    let b ← stmtsOf body
    .ok (.fn ⟨locOf d, n, ps, r, b, (d.note? "entry").bind Datum.symbol? == some "true"⟩)
  | "fun", _ => refuseOperands d
  | "type", [_, name, ty] => do
    let n ← symbolOf name
    .ok (.type ⟨locOf d, n, ← tyOf ty⟩)
  | "type", _ => refuseOperands d
  | _, _ => refuse d (.notDeclaration d)

/-- Marks the first function of the given name. -/
def markEntry (name : String) : List Decl → List Decl
  | [] => []
  | .fn f :: rest => if f.name = name then .fn { f with isEntry := true } :: rest else .fn f :: markEntry name rest
  | .type t :: rest => .type t :: markEntry name rest

/-- Without a marked function the one named `entry` becomes the entry point; an empty name marks none. -/
def Program.withEntry (entry : String) (p : Program) : Program :=
  if p.entry?.isSome || entry.isEmpty then p else ⟨markEntry entry p.decls⟩

def Program.ofDatum (entry : String) (d : Datum) : Decoded Program :=
  if d.head = "program" then do
    .ok (Program.withEntry entry ⟨← (d.items.drop 1).mapM declOf⟩)
  else refuse d .notProgram

inductive ParseError where
  | syntactic (error : Datum.SyntaxError)
  | decoding (error : DecodeError)

def ParseError.message : ParseError → String
  | syntactic e => e.message
  | decoding e => e.message

def Program.parse (entry : String) (text : String) : Except ParseError Program :=
  match Datum.parse text with
  | .error e => .error (.syntactic e)
  | .ok d => (Program.ofDatum entry d).mapError .decoding

end WhileStack.Source
