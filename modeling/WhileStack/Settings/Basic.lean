import WhileStack.Settings.Version.Reader
import WhileStack.Text.Utf8
import WhileStack.Yaml.Reader

/-! The compiler's settings and the document that sets them. Whatever the document leaves out keeps its default. -/
namespace WhileStack

structure Settings where
  classVersion : String
  /-- The function that starts the program if none is marked. -/
  entryPoint : String
  /-- Whether generated code is checked; unset means it is. -/
  verify : Option Bool
  version : Version
deriving DecidableEq, Repr

namespace Settings

def standard : Settings := ⟨"49.0", "main", some true, Version.ofParts 49 0 0⟩

def shouldVerify (s : Settings) : Bool := s.verify.getD true

def lowestMajor : Nat := 45
def highestMajor : Nat := 65

/-- What a value of the document should have been. -/
inductive Wanted where
  | bool
  | string
  | settings
deriving DecidableEq, Repr

def Wanted.text : Wanted → String
  | .bool => "bool"
  | .string => "string"
  | .settings => "config.Config"

/-- A defect of one entry. -/
inductive Problem where
  | repeatedKey (key : String) (first : Nat)
  | unknownField (key : String)
  | wrongKind (found : Yaml.Node) (wanted : Wanted)
deriving DecidableEq, Repr

inductive Error where
  /-- Defects of the document, each with its line. -/
  | decoding (problems : List (Nat × Problem))
  | badVersion (text : String) (cause : Version.ReadError)
  | versionOutside (text : String)
  | noEntryPoint
deriving DecidableEq, Repr

/-- Long text is cut to seven bytes. -/
def excerpt (s : String) : String :=
  if 10 < s.utf8ByteSize then String.ofList (Text.decodeUtf8 (s.toUTF8.toList.take 7)) ++ "..." else s

def nodeText : Yaml.Node → String
  | .scalar s => s.tag.text ++ " `" ++ excerpt s.text ++ "`"
  | .seq => "!!seq"
  | .map => "!!map"

def Problem.message : Problem → String
  | .repeatedKey key first => "mapping key " ++ Text.quote key ++ " already defined at line " ++ toString first
  | .unknownField key => "field " ++ key ++ " not found in type " ++ Wanted.settings.text
  | .wrongKind found wanted => "cannot unmarshal " ++ nodeText found ++ " into " ++ wanted.text

def Error.message : Error → String
  | .decoding problems =>
    "decoding config: yaml: unmarshal errors:" ++
      String.join (problems.map fun (line, p) => "\n  line " ++ toString line ++ ": " ++ p.message)
  | .badVersion t e => "invalid classVersion " ++ Text.quote t ++ ": " ++ e.message
  | .versionOutside t =>
    "classVersion " ++ t ++ " outside supported range " ++ toString lowestMajor ++ ".0-" ++ toString highestMajor ++ ".0"
  | .noEntryPoint => "entryPoint must not be empty"

/-- Every later entry under the same key as an earlier one. -/
def repeated : List Yaml.Entry → List (Nat × Problem)
  | [] => []
  | e :: es =>
    es.filterMap (fun f => if f.key.text = e.key.text then some (f.line, .repeatedKey f.key.text e.line) else none) ++
      repeated es

/-- Text is taken as it was written; nothing at all keeps the default. -/
def stringOf (default : String) : Yaml.Node → Except Problem String
  | .scalar s => .ok (if s.tag = .null then default else s.text)
  | found => .error (.wrongKind found .string)

/-- Besides the words for true and false, some of the older ones are understood, quoted or not. -/
def boolOf : Yaml.Node → Except Problem (Option Bool)
  | .scalar s =>
    match s.tag with
    | .null => .ok none
    | .bool => .ok (some (s.text ∈ Yaml.trueWords))
    | .str =>
      if s.text ∈ ["y", "Y", "yes", "on"] then .ok (some true)
      else if s.text ∈ ["n", "N", "no", "off"] then .ok (some false)
      else .error (.wrongKind (.scalar s) .bool)
    | _ => .error (.wrongKind (.scalar s) .bool)
  | found => .error (.wrongKind found .bool)

/-- The settings after one entry. An entry without a key is passed over. -/
def withEntry (s : Settings) (e : Yaml.Entry) : Except Problem Settings :=
  if e.key.tag = .null then .ok s
  else match e.key.text with
    | "classVersion" => (stringOf s.classVersion e.value).map fun v => { s with classVersion := v }
    | "entryPoint" => (stringOf s.entryPoint e.value).map fun v => { s with entryPoint := v }
    | "verify" => (boolOf e.value).map fun v => { s with verify := v }
    | key => .error (.unknownField key)

/-- All entries in turn; one that is refused changes nothing. -/
def withEntries : Settings → List Yaml.Entry → Settings × List (Nat × Problem)
  | s, [] => (s, [])
  | s, e :: es =>
    match withEntry s e with
    | .ok s => withEntries s es
    | .error p =>
      let (s, ps) := withEntries s es
      (s, (e.line, p) :: ps)

def ofDocument (d : Yaml.Document) : Except Error Settings :=
  match d with
  | .lone line node =>
    if node.isNull then .ok standard else .error (.decoding [(line, .wrongKind node .settings)])
  | .entries es =>
    match repeated es with
    | [] =>
      match withEntries standard es with
      | (s, []) => .ok s
      | (_, ps) => .error (.decoding ps)
    | ps => .error (.decoding ps)

/-- Reads the class version and checks that it lies in the supported range. -/
def validate (s : Settings) : Except Error Settings := do
  let v ← (Version.read s.classVersion).mapError (.badVersion s.classVersion)
  if ¬ v.within (Version.ofParts lowestMajor 0 0) (Version.ofParts highestMajor 0 0) then
    .error (.versionOutside s.classVersion)
  if s.entryPoint.isEmpty then .error .noEntryPoint
  return { s with version := v }

def parse (text : String) : Except Error Settings := ofDocument (Yaml.read text) >>= validate

end Settings
end WhileStack
