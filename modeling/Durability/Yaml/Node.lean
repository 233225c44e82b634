namespace Durability

inductive Yaml
  /-- `plain` tells that the text stands without quotes. -/
  | scalar (text : String) (plain : Bool)
  | seq (items : List Yaml)
  | map (members : List (Yaml × Yaml))

namespace Yaml

def empty : Yaml := scalar "" true

instance : Inhabited Yaml := ⟨empty⟩

def text? : Yaml → Option String
  | scalar text _ => some text
  | _ => none

def plain? : Yaml → Option String
  | scalar text true => some text
  | _ => none

/-- Whether the value is absent: empty, a tilde or `null`, without quotes. -/
def isAbsent : Yaml → Bool
  | scalar text true => ["", "~", "null", "Null", "NULL"].contains text
  | _ => false

def bool? (y : Yaml) : Option Bool :=
  match y.plain? with
  | some "true" | some "True" | some "TRUE" => some true
  | some "false" | some "False" | some "FALSE" => some false
  | _ => none

def digit? (base : Nat) (c : Char) : Option Nat :=
  let d? :=
    if c.isDigit then some (c.toNat - 48)
    else if 'a' ≤ c ∧ c ≤ 'z' then some (c.toNat - 87)
    else if 'A' ≤ c ∧ c ≤ 'Z' then some (c.toNat - 55)
    else none
  d?.filter (· < base)

def digits? (base : Nat) (cs : List Char) : Option Nat :=
  if cs.isEmpty then none
  else cs.foldlM (fun n c ↦ (digit? base c).map (base * n + ·)) 0

def magnitude? : List Char → Option Nat
  | '0' :: 'x' :: cs => digits? 16 cs
  | '0' :: 'o' :: cs => digits? 8 cs
  | '0' :: 'b' :: cs => digits? 2 cs
  | '0' :: _ :: _ => none
  | cs => digits? 10 cs

def integer? : List Char → Option Int
  | '+' :: cs => (magnitude? cs).map Int.ofNat
  | '-' :: cs => (magnitude? cs).map fun n ↦ -Int.ofNat n
  | cs => (magnitude? cs).map Int.ofNat

def uint64? (y : Yaml) : Option UInt64 := do
  let cs := (← y.plain?).toList
  match ← integer? cs with
  | .ofNat n => if cs.head? ≠ some '-' ∧ n < UInt64.size then some (.ofNat n) else none
  | _ => none

def int64? (y : Yaml) : Option Int64 := do
  let n ← integer? (← y.plain?).toList
  if Int64.minValue.toInt ≤ n ∧ n ≤ Int64.maxValue.toInt then some (Int64.ofInt n) else none

def seq? : Yaml → Option (List Yaml)
  | seq items => some items
  | scalar "" true => some []
  | _ => none

/-- The members of a mapping by the texts of their keys. Every key has to be a text. -/
def map? : Yaml → Option (List (String × Yaml))
  | map members => members.mapM fun (k, y) ↦ k.text?.map (·, y)
  | scalar "" true => some []
  | _ => none

def list? {α : Type} (read : Yaml → Option α) (y : Yaml) : Option (List α) :=
  y.seq?.bind (·.mapM read)

/-- The field `name`, if there is one; fails on a name that stands twice. -/
def field? (members : List (String × Yaml)) (name : String) : Option (Option Yaml) :=
  match members.filter (·.1 = name) with
  | [] => some none
  | [(_, y)] => some (some y)
  | _ => none

def required {α : Type} (members : List (String × Yaml)) (name : String)
    (read : Yaml → Option α) : Option α :=
  (field? members name).bind fun y? ↦ y?.bind read

def optional {α : Type} (members : List (String × Yaml)) (name : String)
    (read : Yaml → Option α) : Option (Option α) :=
  (field? members name).bind fun
    | none => some none
    | some y => if y.isAbsent then some none else (read y).map some

end Yaml

end Durability
