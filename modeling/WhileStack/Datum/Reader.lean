import WhileStack.Datum.Basic
import WhileStack.Datum.Token
import WhileStack.Text.Integer

/-! Reading one datum from a text. Notes are written `^` and a map, anywhere inside a list; a trailing comma is
allowed in a map. The reader looks one token ahead, and a token that cannot be read is reported first if it is
within that view. -/
namespace WhileStack.Datum
open WhileStack.Text

/-- What the reader asked for where it stopped. -/
inductive Wanted where
  | datum
  | integer64 (text : String)
  | notesMap
  | closeParen
  | mapKey
  | keyColon
  | commaOrBrace
  | closeBrace
  | endOfText
deriving DecidableEq, Repr

structure Refusal where
  wanted : Wanted
  /-- The unread tokens, the refused one first. -/
  rest : List Token
deriving DecidableEq, Repr

inductive SyntaxCause where
  | lexical (error : LexicalError)
  | refused (wanted : Wanted) (found : Option Lexeme)
deriving DecidableEq, Repr

structure SyntaxError where
  pos : Pos
  cause : SyntaxCause
deriving DecidableEq, Repr

def SyntaxCause.message : SyntaxCause → String
  | .lexical e => e.message
  | .refused w found =>
    let got := (found.map Lexeme.name).getD "EOF"
    match w with
    | .datum => "unexpected token: " ++ got
    | .integer64 text => "invalid integer " ++ text
    | .notesMap => "expected '\x7b' after '^' but got " ++ got
    | .closeParen => "expected ')' but got " ++ got
    | .mapKey => "expected symbol for map key but got " ++ got
    | .keyColon => "expected ':' after map key but got " ++ got
    | .commaOrBrace => "expected ',' or '\x7d' in map but got " ++ got
    | .closeBrace => "expected '\x7d' but got " ++ got
    | .endOfText => "expected EOF but got " ++ got

def SyntaxError.message (e : SyntaxError) : String :=
  e.pos.text ++ ": " ++ e.cause.message

def refuse {α : Type} (wanted : Wanted) (rest : List Token) : Except Refusal α := .error ⟨wanted, rest⟩

mutual

/-- One datum at the front of the tokens. Every second call takes a token, so twice their number bounds the
nesting of calls. -/
def readDatum : Nat → List Token → Except Refusal (Datum × List Token)
  | 0, ts => refuse .datum ts
  | _ + 1, [] => refuse .datum []
  | n + 1, t :: ts =>
    match t.lexeme with
    | .symbol s => .ok (.symbol t.pos s, ts)
    | .string s => .ok (.string t.pos s, ts)
    | .integer s =>
      match readInt64? s.toList with
      | some v => .ok (.integer t.pos s v, ts)
      | none => refuse (.integer64 s) (t :: ts)
    | .lparen => do
      let ((items, notes), ts) ← readItems n ts
      .ok (.list t.pos items (addNotes [] notes), ts)
    | .lbrace => do
      let (entries, ts) ← readEntries n ts
      .ok (.map t.pos entries, ts)
    | _ => refuse .datum (t :: ts)

/-- The items and notes of a list up to its closing bracket, each in the order of the text. -/
def readItems : Nat → List Token → Except Refusal ((List Datum × List (String × Datum)) × List Token)
  | 0, ts => refuse .closeParen ts
  | _ + 1, [] => refuse .closeParen []
  | n + 1, t :: ts =>
    match t.lexeme with
    | .rparen => .ok (([], []), ts)
    | .caret =>
      match ts with
      | ⟨.lbrace, _⟩ :: ts => do
        let (entries, ts) ← readEntries n ts
        let ((items, notes), ts) ← readItems n ts
        .ok ((items, entries ++ notes), ts)
      | ts => refuse .notesMap ts
    | _ => do
      let (item, ts) ← readDatum n (t :: ts)
      let ((items, notes), ts) ← readItems n ts
      .ok ((item :: items, notes), ts)

/-- The entries of a map up to its closing brace. -/
def readEntries : Nat → List Token → Except Refusal (List (String × Datum) × List Token)
  | 0, ts => refuse .closeBrace ts
  | _ + 1, [] => refuse .closeBrace []
  | n + 1, t :: ts =>
    match t.lexeme with
    | .rbrace => .ok ([], ts)
    | .symbol key =>
      match ts with
      | ⟨.colon, _⟩ :: ts => do
        let (value, ts) ← readDatum n ts
        match ts with
        | ⟨.comma, _⟩ :: ts =>
          let (entries, ts) ← readEntries n ts
          .ok ((key, value) :: entries, ts)
        | ⟨.rbrace, _⟩ :: ts => .ok ([(key, value)], ts)
        | ts => refuse .commaOrBrace ts
      | ts => refuse .keyColon ts
    | _ => refuse .mapKey (t :: ts)

end

def Refusal.toSyntaxError (r : Refusal) (ending : Ending) : SyntaxError :=
  ⟨(r.rest.head?.map Token.pos).getD ending.pos, .refused r.wanted (r.rest.head?.map Token.lexeme)⟩

/-- The one datum of a token sequence, or the place where reading stopped. -/
def readAll (ts : List Token) : Except Refusal Datum := do
  let (d, rest) ← readDatum (2 * ts.length + 2) ts
  if rest.isEmpty then .ok d else .error ⟨.endOfText, rest⟩

/-- A token that cannot be read is reported if at most one token is left before it. -/
def ofLexed (l : Lexed) : Except SyntaxError Datum :=
  match readAll l.tokens, l.ending with
  | .ok d, .finished _ => .ok d
  | .ok _, .failed e p => .error ⟨p, .lexical e⟩
  | .error r, .finished p => .error (r.toSyntaxError (.finished p))
  | .error r, .failed e p =>
    if r.rest.length ≤ 1 then .error ⟨p, .lexical e⟩ else .error (r.toSyntaxError (.failed e p))

def ofChars (cs : List Char) : Except SyntaxError Datum := ofLexed (lex cs)

def parse (text : String) : Except SyntaxError Datum := ofChars text.toList

end WhileStack.Datum
