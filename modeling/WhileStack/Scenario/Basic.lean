import WhileStack.Datum.Reader
import WhileStack.Scenario.Markdown

/-! Test scenarios written as Markdown. A heading `Test: name` opens one; the fences below it give its program and
what is expected of it. -/
namespace WhileStack

/-- What a fence of a scenario states about the program. -/
inductive CheckKind where
  | bytecode
  | execute
  | compileError
  | locals
deriving DecidableEq, Repr

namespace CheckKind

def text : CheckKind → String
  | .bytecode => "bytecode"
  | .execute => "execute"
  | .compileError => "compile-error"
  | .locals => "locals"

def all : List CheckKind := [.bytecode, .execute, .compileError, .locals]

def ofText? (s : String) : Option CheckKind := all.find? fun k => k.text = s

end CheckKind

structure Check where
  kind : CheckKind
  content : String
  line : Nat
  /-- The content as a datum, for slot layouts. -/
  datum : Option Datum

structure Scenario where
  name : String
  input : String
  datum : Datum
  checks : List Check

namespace Scenario
open Markdown (Fence Block)

/-- The language of the fence that holds the program. -/
def inputLanguage : String := "while-ast"

inductive Cause where
  | outside (language : String)
  | secondInput (name : String)
  | badInput (name : String) (error : Datum.SyntaxError)
  | badLocals (name : String) (error : Datum.SyntaxError)
  | unknownLanguage (language name : String)
deriving DecidableEq, Repr

/-- A scenario that lacks a part. -/
inductive Lack where
  | noInput (name : String)
  | noCheck (name : String)
deriving DecidableEq, Repr

inductive Error where
  | atFence (line : Nat) (cause : Cause)
  /-- The scenario was incomplete when the next one began. -/
  | beforeNext (lack : Lack)
  /-- The last scenario is incomplete. -/
  | atEnd (lack : Lack)
deriving DecidableEq, Repr

def Cause.message : Cause → String
  | .outside language => language ++ " fence found outside of test case"
  | .secondInput name => "multiple input fences found in test '" ++ name ++ "'"
  | .badInput name e => "failed to parse input of test '" ++ name ++ "': " ++ e.message
  | .badLocals name e => "failed to parse Sexy assertion in test '" ++ name ++ "': " ++ e.message
  | .unknownLanguage language name => "unknown fence language '" ++ language ++ "' in test '" ++ name ++ "'"

def Lack.message : Lack → String
  | .noInput name => "test '" ++ name ++ "' has no input fence"
  | .noCheck name => "test '" ++ name ++ "' has no assertion fences"

def Error.message : Error → String
  | .atFence line cause => "error walking markdown AST: line " ++ toString line ++ ": " ++ cause.message
  | .beforeNext lack => "error walking markdown AST: " ++ lack.message
  | .atEnd lack => lack.message

/-- A scenario being collected, its checks latest first. The program is empty until one has been read. -/
structure Draft where
  name : String
  input : String
  datum : Datum
  checks : List Check

def Draft.start (name : String) : Draft := ⟨name, "", default, []⟩

/-- A scenario has a program and at least one check. -/
def Draft.finish (d : Draft) : Except Lack Scenario :=
  if d.input = "" then .error (.noInput d.name)
  else if d.checks.isEmpty then .error (.noCheck d.name)
  else .ok ⟨d.name, d.input, d.datum, d.checks.reverse⟩

/-- Slot layouts are read as data; other contents are kept as text. -/
def readCheck (name : String) (kind : CheckKind) (f : Fence) : Except Cause Check :=
  match kind with
  | .locals => (Datum.parse f.trimmed).mapError (.badLocals name) |>.map fun d => ⟨kind, f.trimmed, f.line, some d⟩
  | _ => .ok ⟨kind, f.trimmed, f.line, none⟩

/-- Adds a fence to the scenario it stands in. A fence without a language is prose. -/
def Draft.add (d : Draft) (f : Fence) : Except Cause Draft :=
  if f.language = inputLanguage then
    if d.input ≠ "" then .error (.secondInput d.name)
    else (Datum.parse f.trimmed).mapError (.badInput d.name) |>.map fun x => { d with input := f.trimmed, datum := x }
  else match CheckKind.ofText? f.language with
    | some kind => (readCheck d.name kind f).map fun c => { d with checks := c :: d.checks }
    | none => if f.language = "" then .ok d else .error (.unknownLanguage f.language d.name)

/-- The name that a heading gives to a scenario. -/
def titleOf? (heading : String) : Option String :=
  match heading.toList with
  | 'T' :: 'e' :: 's' :: 't' :: ':' :: ' ' :: name => some (String.ofList name)
  | _ => none

/-- The scenarios of blocks, given the one that is being collected. -/
def collect : Option Draft → List Block → Except Error (List Scenario)
  | none, [] => .ok []
  | some d, [] => (d.finish.mapError Error.atEnd).map fun s => [s]
  | current, .heading t :: bs =>
    match titleOf? t with
    | none => collect current bs
    | some name =>
      match current with
      | none => collect (some (.start name)) bs
      | some d => do
        let s ← d.finish.mapError Error.beforeNext
        let ss ← collect (some (.start name)) bs
        return s :: ss
  | none, .fence f :: bs =>
    if f.language = "" then collect none bs else .error (.atFence f.line (.outside f.language))
  | some d, .fence f :: bs => do
    let d ← (d.add f).mapError (Error.atFence f.line)
    collect (some d) bs

/-- All scenarios of a document, in order. -/
def extract (text : String) : Except Error (List Scenario) := collect none (Markdown.blocks text)

end Scenario
end WhileStack
