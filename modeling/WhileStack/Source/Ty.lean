/-! Types of the source language and their text. -/
namespace WhileStack.Source

inductive Ty where
  | void
  | bool
  | int
  | string
  | list (elem : Ty)
  | record (fields : List (String × Ty))
  | named (name : String)
deriving Inhabited, Repr

namespace Ty

mutual

/-- Types are equal when they are built alike; a named type is equal to itself only. -/
def same : Ty → Ty → Bool
  | .void, .void => true
  | .bool, .bool => true
  | .int, .int => true
  | .string, .string => true
  | .list a, .list b => same a b
  | .record fs, .record gs => sameFields fs gs
  | .named m, .named n => m == n
  | _, _ => false

def sameFields : List (String × Ty) → List (String × Ty) → Bool
  | [], [] => true
  | (m, a) :: fs, (n, b) :: gs => m == n && same a b && sameFields fs gs
  | _, _ => false

end

mutual

theorem eq_of_same : ∀ {a b : Ty}, same a b = true → a = b
  | .void, b, h => by cases b <;> simp_all [same]
  | .bool, b, h => by cases b <;> simp_all [same]
  | .int, b, h => by cases b <;> simp_all [same]
  | .string, b, h => by cases b <;> simp_all [same]
  | .list a, b, h => by
    cases b <;> simp only [same, Bool.false_eq_true] at h
    rw [eq_of_same h]
  | .record fs, b, h => by
    cases b <;> simp only [same, Bool.false_eq_true] at h
    rw [eq_of_sameFields h]
  | .named m, b, h => by cases b <;> simp_all [same]

theorem eq_of_sameFields : ∀ {fs gs : List (String × Ty)}, sameFields fs gs = true → fs = gs
  | [], gs, h => by cases gs <;> simp_all [sameFields]
  | (m, a) :: fs, gs, h => by
    cases gs with
    | nil => simp [sameFields] at h
    | cons g gs =>
      simp only [sameFields, Bool.and_eq_true, beq_iff_eq] at h
      rw [eq_of_same h.1.2, eq_of_sameFields h.2, h.1.1]

end

mutual

theorem same_refl : ∀ a : Ty, same a a = true
  | .void => rfl
  | .bool => rfl
  | .int => rfl
  | .string => rfl
  | .list a => by simp only [same, same_refl a]
  | .record fs => by simp only [same, sameFields_refl fs]
  | .named m => by simp [same]

theorem sameFields_refl : ∀ fs : List (String × Ty), sameFields fs fs = true
  | [] => rfl
  | (m, a) :: fs => by simp [sameFields, same_refl a, sameFields_refl fs]

end

instance : DecidableEq Ty := fun a b =>
  if h : same a b = true then .isTrue (eq_of_same h)
  else .isFalse fun e => h (e ▸ same_refl a)

/-- The type that a symbol names. -/
def ofSymbol (s : String) : Ty :=
  if s = "void" then .void
  else if s = "bool" then .bool
  else if s = "int" then .int
  else if s = "string" then .string
  else .named s

mutual

def text : Ty → String
  | .void => "void"
  | .bool => "bool"
  | .int => "int"
  | .string => "string"
  | .list t => "(list " ++ text t ++ ")"
  | .record fs => "(record" ++ textFields fs ++ ")"
  | .named n => n

def textFields : List (String × Ty) → String
  | [] => ""
  | (n, t) :: fs => " (" ++ n ++ " " ++ text t ++ ")" ++ textFields fs

end

end Ty
end WhileStack.Source
