namespace Durability

inductive Json
  | null
  | bool (b : Bool)
  | int (n : Int)
  /-- A number written with a fraction or an exponent, or as a negative zero. -/
  | decimal (text : String)
  | str (s : String)
  /-- A string whose escapes name half a pair of UTF-16 units, so that it spells no text. -/
  | unpaired
  | arr (items : List Json)
  | obj (members : List (String × Json))

namespace Json

instance : Inhabited Json := ⟨null⟩

def nat (n : Nat) : Json := int n

def optional {α : Type} (json : α → Json) : Option α → Json
  | none => null
  | some a => json a

def list {α : Type} (json : α → Json) (l : List α) : Json := arr (l.map json)

def int? : Json → Option Int
  | int n => some n
  | _ => none

def word? : Json → Option Nat
  | int (.ofNat n) => if n < UInt64.size then some n else none
  | _ => none

def uint64? (j : Json) : Option UInt64 := j.word?.map UInt64.ofNat

def int64? : Json → Option Int64
  | int n => if Int64.minValue.toInt ≤ n ∧ n ≤ Int64.maxValue.toInt then some (Int64.ofInt n) else none
  | _ => none

def str? : Json → Option String
  | str s => some s
  | _ => none

def arr? : Json → Option (List Json)
  | arr items => some items
  | _ => none

def obj? : Json → Option (List (String × Json))
  | obj members => some members
  | _ => none

/-- A name, alone or as the only member of an object, without a value. -/
def tag? : Json → Option String
  | str s => some s
  | obj [(s, null)] => some s
  | _ => none

/-- The members of a record. Their values may also be listed in the order of `names`, up to any of them. -/
def members? (names : List String) : Json → Option (List (String × Json))
  | obj members => some members
  | arr items => if items.length ≤ names.length then some (names.zip items) else none
  | _ => none

def list? {α : Type} (read : Json → Option α) (j : Json) : Option (List α) :=
  j.arr?.bind (·.mapM read)

/-- The field `name`, if there is one; fails on a name that stands twice. -/
def field? (members : List (String × Json)) (name : String) : Option (Option Json) :=
  match members.filter (·.1 = name) with
  | [] => some none
  | [(_, j)] => some (some j)
  | _ => none

def required {α : Type} (members : List (String × Json)) (name : String)
    (read : Json → Option α) : Option α :=
  (field? members name).bind fun j? ↦ j?.bind read

def orElse {α : Type} (members : List (String × Json)) (name : String) (default : α)
    (read : Json → Option α) : Option α :=
  (field? members name).bind fun
    | none => some default
    | some j => read j

def nullable {α : Type} (members : List (String × Json)) (name : String)
    (read : Json → Option α) : Option (Option α) :=
  orElse members name none fun
    | null => some none
    | j => (read j).map some

end Json

end Durability
