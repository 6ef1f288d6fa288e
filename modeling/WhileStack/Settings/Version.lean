/-! Version numbers of three parts with an optional pre-release and build metadata, and their precedence. -/
namespace WhileStack

/-- One identifier of a pre-release: a number or a word. -/
inductive PreId where
  | num (n : Nat)
  | word (s : String)
deriving DecidableEq, Repr

structure Version where
  major : Nat
  minor : Nat
  patch : Nat
  pre : List PreId
  build : List String
deriving DecidableEq, Repr

namespace PreId

def text : PreId → String
  | .num n => toString n
  | .word s => s

/-- A number comes before every word. -/
def compare : PreId → PreId → Ordering
  | .num m, .num n => Ord.compare m n
  | .num _, .word _ => .lt
  | .word _, .num _ => .gt
  | .word s, .word t => Ord.compare s t

/-- The first difference decides; of two lists that agree as far as the shorter goes, the shorter comes first. -/
def compareLists : List PreId → List PreId → Ordering
  | [], [] => .eq
  | [], _ :: _ => .lt
  | _ :: _, [] => .gt
  | a :: as, b :: bs => (a.compare b).then (compareLists as bs)

end PreId

namespace Version

def ofParts (major minor patch : Nat) : Version := ⟨major, minor, patch, [], []⟩

/-- The version as a class file records it. -/
def classText (v : Version) : String := toString v.major ++ "." ++ toString v.minor

/-- The whole version: three numbers, then the pre-release behind a `-` and the build behind a `+`. -/
def text (v : Version) : String :=
  v.classText ++ "." ++ toString v.patch ++
    (if v.pre.isEmpty then "" else "-" ++ ".".intercalate (v.pre.map PreId.text)) ++
    (if v.build.isEmpty then "" else "+" ++ ".".intercalate v.build)

/-- A release comes after all of its pre-releases. -/
def comparePre : List PreId → List PreId → Ordering
  | [], [] => .eq
  | [], _ :: _ => .gt
  | _ :: _, [] => .lt
  | as, bs => PreId.compareLists as bs

/-- Precedence: the numbers from left to right, then the pre-release. Build metadata does not count. -/
def compare (v w : Version) : Ordering :=
  (Ord.compare v.major w.major).then <| (Ord.compare v.minor w.minor).then <|
    (Ord.compare v.patch w.patch).then <| comparePre v.pre w.pre

/-- Both ends belong to the range. -/
def within (v low high : Version) : Bool := v.compare low != .lt && v.compare high != .gt

end Version
end WhileStack
