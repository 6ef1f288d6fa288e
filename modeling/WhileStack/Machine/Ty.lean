/-! Machine types: what a slot or a stack cell holds, with the names that class files give them. -/
namespace WhileStack.Machine

inductive Ty where
  | void
  | int
  | boolean
  | string
  | list (elem : Ty)
  /-- A layout: the fields in the order of their offsets. -/
  | record (fields : List (String × Ty))
  | array (elem : Ty)
  | object (cls : String)
  /-- A kind the machine has no name for. -/
  | other (kind : Int)
deriving Inhabited, Repr

namespace Ty

mutual

def same : Ty → Ty → Bool
  | .void, .void => true
  | .int, .int => true
  | .boolean, .boolean => true
  | .string, .string => true
  | .list a, .list b => same a b
  | .record fs, .record gs => sameFields fs gs
  | .array a, .array b => same a b
  | .object c, .object d => c == d
  | .other m, .other n => m == n
  | _, _ => false

def sameFields : List (String × Ty) → List (String × Ty) → Bool
  | [], [] => true
  | (m, a) :: fs, (n, b) :: gs => m == n && same a b && sameFields fs gs
  | _, _ => false

end

mutual

theorem eq_of_same : ∀ {a b : Ty}, same a b = true → a = b
  | .void, b, h => by cases b <;> simp_all [same]
  | .int, b, h => by cases b <;> simp_all [same]
  | .boolean, b, h => by cases b <;> simp_all [same]
  | .string, b, h => by cases b <;> simp_all [same]
  | .list a, b, h => by
    cases b <;> simp only [same, Bool.false_eq_true] at h
    rw [eq_of_same h]
  | .record fs, b, h => by
    cases b <;> simp only [same, Bool.false_eq_true] at h
    rw [eq_of_sameFields h]
  | .array a, b, h => by
    cases b <;> simp only [same, Bool.false_eq_true] at h
    rw [eq_of_same h]
  | .object c, b, h => by cases b <;> simp_all [same]
  | .other n, b, h => by cases b <;> simp_all [same]

theorem eq_of_sameFields : ∀ {fs gs : List (String × Ty)}, sameFields fs gs = true → fs = gs
  | [], gs, h => by cases gs <;> simp_all [sameFields]
  | (m, a) :: fs, gs, h => by
    cases gs with
    | nil => simp [sameFields] at h
    | cons g gs =>
      simp only [sameFields, Bool.and_eq_true, beq_iff_eq] at h
      rw [eq_of_same h.1.2, eq_of_sameFields h.2, h.1.1]

end

mutual

theorem same_refl : ∀ a : Ty, same a a = true
  | .void => rfl
  | .int => rfl
  | .boolean => rfl
  | .string => rfl
  | .list a => by simp only [same, same_refl a]
  | .record fs => by simp only [same, sameFields_refl fs]
  | .array a => by simp only [same, same_refl a]
  | .object c => by simp [same]
  | .other n => by simp [same]

theorem sameFields_refl : ∀ fs : List (String × Ty), sameFields fs fs = true
  | [] => rfl
  | (m, a) :: fs => by simp [sameFields, same_refl a, sameFields_refl fs]

end

instance : DecidableEq Ty := fun a b =>
  if h : same a b = true then .isTrue (eq_of_same h)
  else .isFalse fun e => h (e ▸ same_refl a)

/-- The argument vector that an entry point receives. -/
def args : Ty := .array .string

def kindName : Ty → String
  | .void => "void"
  | .int => "int"
  | .boolean => "boolean"
  | .string => "string"
  | .list _ => "list"
  | .record _ => "record"
  | .array _ => "array"
  | .object _ => "object"
  | .other k => "kind(" ++ toString k ++ ")"

/-- The fields of a layout; other types have none. -/
def fields : Ty → List (String × Ty)
  | .record fs => fs
  | _ => []

/-- The first field of a name, with its offset. -/
def findField (name : String) : Nat → List (String × Ty) → Option (Nat × Ty)
  | _, [] => none
  | i, (n, t) :: rest => if n = name then some (i, t) else findField name (i + 1) rest

def field? (t : Ty) (name : String) : Option (Nat × Ty) := findField name 0 t.fields

def isVoid : Ty → Bool
  | .void => true
  | _ => false

def isReference : Ty → Bool
  | .string => true
  | .list _ => true
  | .record _ => true
  | .array _ => true
  | .object _ => true
  | _ => false

/-- Lists and records: mutable, and copied when a variable is read. -/
def isComposite : Ty → Bool
  | .list _ => true
  | .record _ => true
  | _ => false

/-- How many cells a value of the type takes. -/
def width (t : Ty) : Nat := if t.isVoid then 0 else 1

/-- The letter in front of loads, stores and returns. -/
def opLetter : Ty → String
  | .int => "i"
  | .boolean => "i"
  | .void => ""
  | _ => "a"

/-- The class of an object's type. -/
def cls : Ty → String
  | .object c => c
  | _ => ""

def className : Ty → String
  | .string => "java/lang/String"
  | .list _ => "java/util/ArrayList"
  | .record _ => "java/util/HashMap"
  | t => t.cls

/-- The class that wraps a value inside a collection. -/
def boxed : Ty → String
  | .int => "java/lang/Integer"
  | .boolean => "java/lang/Boolean"
  | t => t.className

def descriptor : Ty → String
  | .void => "V"
  | .int => "I"
  | .boolean => "Z"
  | .array t => "[" ++ descriptor t
  | t => "L" ++ t.className ++ ";"

mutual

def text : Ty → String
  | .list t => "list<" ++ text t ++ ">"
  | .array t => text t ++ "[]"
  | .record fs => "\x7b" ++ ",".intercalate (textFields fs) ++ "\x7d"
  | .object c => c
  | t => t.kindName

def textFields : List (String × Ty) → List String
  | [] => []
  | (n, t) :: fs => (n ++ ":" ++ text t) :: textFields fs

end

end Ty
end WhileStack.Machine
