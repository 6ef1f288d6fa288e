import WhileStack.Datum.Pos
import WhileStack.Text.Blank
import WhileStack.Text.Digit
import WhileStack.Text.Letter

/-! Tokens of the datum language. Blanks and comments from a semicolon to the end of the line separate tokens;
U+0000 ends the text wherever it stands outside a string. -/
namespace WhileStack.Datum
open WhileStack.Text

inductive Lexeme where
  | symbol (text : String)
  | string (contents : String)
  | integer (text : String)
  | lparen
  | rparen
  | lbrace
  | rbrace
  | colon
  | comma
  | caret
deriving DecidableEq, Repr

/-- How a token is named in messages. -/
def Lexeme.name : Lexeme → String
  | .symbol _ => "symbol"
  | .string _ => "string"
  | .integer _ => "integer"
  | .lparen => "'('"
  | .rparen => "')'"
  | .lbrace => "'\x7b'"
  | .rbrace => "'\x7d'"
  | .colon => "':'"
  | .comma => "','"
  | .caret => "'^'"

structure Token where
  lexeme : Lexeme
  pos : Pos
deriving DecidableEq, Repr

inductive LexicalError where
  | badEscape (c : Char)
  | unterminated
  | stray (c : Char)
deriving DecidableEq, Repr

def LexicalError.message : LexicalError → String
  | .badEscape c => "invalid escape sequence: \\" ++ String.singleton c
  | .unterminated => "unterminated string"
  | .stray c => "unexpected character '" ++ String.singleton c ++ "'"

/-- The characters that a symbol may hold besides letters and digits. -/
def operatorChars : List Char :=
  ['-', '_', '+', '*', '/', '%', '<', '>', '=', '!', '&', '|', '.', '$']

def isSymbolChar (c : Char) : Bool :=
  isLetter c || isDecimal c || operatorChars.contains c

/-- The character that ends a text early. -/
def nul : Char := Char.ofNat 0

/-- Passes over blanks and comments; `comment` tells whether a comment is open. -/
def skipGap : Bool → Pos → List Char → Pos × List Char
  | _, p, [] => (p, [])
  | true, p, c :: cs => if c = nul then (p, c :: cs) else skipGap (c != '\n') (p.after c) cs
  | false, p, c :: cs =>
    if isBlank c then skipGap false (p.after c) cs
    else if c = ';' then skipGap true (p.after c) cs
    else (p, c :: cs)

/-- What a letter behind a backslash stands for. -/
def unescape (c : Char) : Option Char :=
  if c = '"' ∨ c = '\\' then some c
  else if c = 'n' then some '\n'
  else if c = 't' then some '\t'
  else none

/-- The contents of a string up to its closing quote. -/
def stringBody : Pos → List Char → Except LexicalError (List Char × Pos × List Char)
  | _, [] => .error .unterminated
  | p, c :: cs =>
    if c = '"' then .ok ([], p.after c, cs)
    else if c = nul then .error .unterminated
    else if c = '\\' then
      match cs with
      | [] => .error (.badEscape nul)
      | e :: cs =>
        match unescape e with
        | none => .error (.badEscape e)
        | some x => (stringBody ((p.after c).after e) cs).map fun (s, r) => (x :: s, r)
    else (stringBody (p.after c) cs).map fun (s, r) => (c :: s, r)

/-- The bracket or mark that a single character forms. -/
def markLexeme (c : Char) : Option Lexeme :=
  match c with
  | '(' => some .lparen
  | ')' => some .rparen
  | '\x7b' => some .lbrace
  | '\x7d' => some .rbrace
  | ':' => some .colon
  | ',' => some .comma
  | '^' => some .caret
  | _ => none

/-- An integer starts with a digit, or with a sign in front of one. -/
def startsInteger (c : Char) (cs : List Char) : Bool :=
  isDecimal c || ((c = '+' || c = '-') && (cs.head?.map isDecimal).getD false)

/-- The lexeme that starts with `c` at `p`, with the position and the text behind it. -/
def lexeme (p : Pos) (c : Char) (cs : List Char) : Except LexicalError (Lexeme × Pos × List Char) :=
  match markLexeme c with
  | some m => .ok (m, p.after c, cs)
  | none =>
    if c = '"' then
      (stringBody (p.after c) cs).map fun (s, r) => (.string (String.ofList s), r)
    else if startsInteger c cs then
      let ds := c :: cs.takeWhile isDecimal
      .ok (.integer (String.ofList ds), p.past ds, cs.dropWhile isDecimal)
    else if isSymbolChar c then
      let s := c :: cs.takeWhile isSymbolChar
      .ok (.symbol (String.ofList s), p.past s, cs.dropWhile isSymbolChar)
    else .error (.stray c)

/-- How a text ends: after its last token, or at a token that cannot be read. -/
inductive Ending where
  | finished (pos : Pos)
  | failed (error : LexicalError) (pos : Pos)
deriving DecidableEq, Repr

def Ending.pos : Ending → Pos
  | .finished p => p
  | .failed _ p => p

structure Lexed where
  tokens : List Token
  ending : Ending
deriving DecidableEq, Repr

/-- Every token takes at least one character, so the length of the text bounds the number of rounds. -/
def lexFrom : Nat → Pos → List Char → Lexed
  | 0, p, _ => ⟨[], .finished p⟩
  | rounds + 1, p, cs =>
    match skipGap false p cs with
    | (p, []) => ⟨[], .finished p⟩
    | (p, c :: cs) =>
      if c = nul then ⟨[], .finished p⟩
      else match lexeme p c cs with
        | .error e => ⟨[], .failed e p⟩
        | .ok (l, p', cs') =>
          let rest := lexFrom rounds p' cs'
          ⟨⟨l, p⟩ :: rest.tokens, rest.ending⟩

def lex (cs : List Char) : Lexed := lexFrom (cs.length + 1) Pos.start cs

end WhileStack.Datum
