import WhileStack.Value.Heap

/-! Values as trees: what lists and records hold, without the places in the heap that hold it. -/
namespace WhileStack

/-- What a list or record is apart from the values in it. -/
inductive Shape where
  | list
  | record (names : List String)
deriving DecidableEq, Repr

namespace Cell

def shape : Cell → Shape
  | list _ => .list
  | record fs => .record (fs.map Prod.fst)

def children : Cell → List Value
  | list es => es
  | record fs => fs.map Prod.snd

end Cell

def Value.isRef : Value → Bool
  | ref _ => true
  | _ => false

theorem Value.isRef_cases (v : Value) : v.isRef = false ∨ ∃ a, v = .ref a := by
  cases v with
  | ref a => exact .inr ⟨a, rfl⟩
  | _ => exact .inl rfl

/-- Equal to itself: a missing value and an argument vector are not. -/
def Value.isComparable : Value → Bool
  | int _ | bool _ | string _ | object _ _ => true
  | _ => false

inductive Tree where
  /-- A value that is neither list nor record. -/
  | leaf (v : Value)
  | node (shape : Shape) (children : List Tree)

namespace Tree

/-- What an unset variable holds. -/
@[match_pattern] abbrev null : Tree := leaf .null

def isNode : Tree → Bool
  | node _ _ => true
  | leaf _ => false

mutual

def height : Tree → Nat
  | leaf _ => 0
  | node _ ts => heights ts + 1

def heights : List Tree → Nat
  | [] => 0
  | t :: ts => max (height t) (heights ts)

end

mutual

/-- What `print` writes. -/
def format : Tree → String
  | leaf v => Heap.empty.format v
  | node .list ts => "[" ++ ", ".intercalate (formats ts) ++ "]"
  | node (.record ns) ts =>
    "\x7b" ++ ",".intercalate ((ns.zip (formats ts)).map fun p => p.1 ++ ":" ++ p.2) ++ "\x7d"

def formats : List Tree → List String
  | [] => []
  | t :: ts => format t :: formats ts

end

mutual

/-- Equality of structure. -/
def equal : Tree → Tree → Bool
  | leaf v, leaf w => Heap.empty.equal v w
  | node s ts, node r us => s == r && equals ts us
  | _, _ => false

def equals : List Tree → List Tree → Bool
  | [], [] => true
  | t :: ts, u :: us => equal t u && equals ts us
  | _, _ => false

end

mutual

def isComparable : Tree → Bool
  | leaf v => v.isComparable
  | node _ ts => areComparable ts

def areComparable : List Tree → Bool
  | [] => true
  | t :: ts => isComparable t && areComparable ts

end

theorem areComparable_iff {ts : List Tree} : areComparable ts = true ↔ ∀ t ∈ ts, t.isComparable = true := by
  induction ts with
  | nil => simp [areComparable]
  | cons t ts ih => simp [areComparable, ih]

mutual

theorem equal_self : ∀ {t : Tree}, t.isComparable = true → t.equal t = true
  | leaf v, h => by cases v <;> simp_all [isComparable, Value.isComparable, equal, Heap.equal, Heap.equalTo]
  | node s ts, h => by
    rw [isComparable] at h
    rw [equal, equals_self h, beq_self_eq_true, Bool.and_self]

theorem equals_self : ∀ {ts : List Tree}, areComparable ts = true → equals ts ts = true
  | [], _ => rfl
  | t :: ts, h => by
    obtain ⟨ht, hts⟩ := Bool.and_eq_true_iff.mp (by simpa only [areComparable] using h)
    rw [equals, equal_self ht, equals_self hts, Bool.and_self]

end

def tag : Tree → Tag
  | leaf v => Heap.empty.tag v
  | node .list _ => .list
  | node (.record _) _ => .record

/-- The elements of a list. -/
def list? : Tree → Option (List Tree)
  | node .list ts => some ts
  | _ => none

/-- The fields of a record. -/
def record? : Tree → Option (List (String × Tree))
  | node (.record ns) ts => some (ns.zip ts)
  | _ => none

@[simp] theorem list?_list (ts : List Tree) : (node .list ts).list? = some ts := rfl

@[simp] theorem record?_record (ns : List String) (ts : List Tree) :
    (node (.record ns) ts).record? = some (ns.zip ts) := rfl

/-- The values of the named fields, in the given order. -/
def select (fs : List (String × Tree)) : List String → Except ValueError (List Tree)
  | [] => .ok []
  | n :: rest =>
    match fs.lookup n with
    | none => .error (.noField n)
    | some t => do .ok (t :: (← select fs rest))

def project (fs : List (String × Tree)) (names : List String) : Except ValueError Tree := do
  .ok (node (.record names) (← select fs names))

/-- Two strings or two lists, one behind the other. -/
def append (t u : Tree) : Except ValueError Tree :=
  match t with
  | leaf (.string s) =>
    match u with
    | leaf (.string s') => .ok (leaf (.string (s ++ s')))
    | _ => .error .appendToString
  | _ =>
    match t.list?, u.list? with
    | some ts, some us => .ok (node .list (ts ++ us))
    | some _, none => .error .appendToList
    | none, _ => .error (.appendTo t.tag)

def length (t : Tree) : Except ValueError Int32 :=
  match t with
  | leaf (.string s) => .ok (Int32.ofNat (Heap.units16 s))
  | _ =>
    match t.list? with
    | some ts => .ok (Int32.ofNat ts.length)
    | none => .error (.lengthOf t.tag)

/-- The tree that a path of child positions leads to. -/
def get? : Tree → List Nat → Option Tree
  | t, [] => some t
  | node _ ts, i :: path => ts[i]?.bind fun t => t.get? path
  | leaf _, _ :: _ => none

/-- Puts a tree in the place that a path leads to. -/
def put : Tree → List Nat → Tree → Tree
  | _, [], u => u
  | node s ts, i :: path, u => node s (ts.modify i fun t => t.put path u)
  | leaf v, _ :: _, _ => leaf v

end Tree
end WhileStack
