import Durability.Json.Basic

namespace Durability.Json

inductive Token
  | openBrace
  | closeBrace
  | openBracket
  | closeBracket
  | colon
  | comma
  | str (s : String)
  | unpaired
  | bare (j : Json)

def digits (cs : List Char) : Nat := cs.foldl (fun n c ↦ 10 * n + (c.toNat - 48)) 0

def isExponent : List Char → Bool
  | [] => true
  | e :: cs => (e == 'e' || e == 'E') &&
    match cs with
    | '+' :: cs | '-' :: cs => !cs.isEmpty && cs.all Char.isDigit
    | cs => !cs.isEmpty && cs.all Char.isDigit

def isTail : List Char → Bool
  | '.' :: cs => (cs.takeWhile Char.isDigit) != [] && isExponent (cs.dropWhile Char.isDigit)
  | cs => isExponent cs

/-- A number: no leading zero, no sign but a minus. -/
def number? (cs : List Char) : Option Json :=
  let body := match cs with
    | '-' :: cs => cs
    | cs => cs
  let whole := body.takeWhile Char.isDigit
  let rest := body.dropWhile Char.isDigit
  let n := digits whole
  if whole = [] ∨ (whole.head? = some '0' ∧ 1 < whole.length) ∨ !isTail rest then none
  else if rest ≠ [] ∨ (cs.head? = some '-' ∧ n = 0) then some (.decimal (String.ofList cs))
  else some (.int (if cs.head? = some '-' then -n else n))

def bare? (cs : List Char) : Option Json :=
  if cs = "null".toList then some .null
  else if cs = "true".toList then some (.bool true)
  else if cs = "false".toList then some (.bool false)
  else number? cs

/-- Joins the halves of each pair of UTF-16 units; none if a half stands alone. -/
def joinUnits : List Nat → Option (List Char)
  | [] => some []
  | u :: us =>
    if u < 0xD800 ∨ 0xE000 ≤ u then (joinUnits us).map (Char.ofNat u :: ·)
    else match us with
      | v :: us =>
        if u < 0xDC00 ∧ 0xDC00 ≤ v ∧ v < 0xE000 then
          (joinUnits us).map (Char.ofNat (0x10000 + (u - 0xD800) * 0x400 + (v - 0xDC00)) :: ·)
        else none
      | [] => none

def hexDigit? (c : Char) : Option Nat :=
  if c.isDigit then some (c.toNat - 48)
  else if 'a' ≤ c ∧ c ≤ 'f' then some (c.toNat - 87)
  else if 'A' ≤ c ∧ c ≤ 'F' then some (c.toNat - 55)
  else none

def escaped? : Char → Option Nat
  | '"' => some 34
  | '\\' => some 92
  | '/' => some 47
  | 'b' => some 8
  | 'f' => some 12
  | 'n' => some 10
  | 'r' => some 13
  | 't' => some 9
  | _ => none

/-- Where the reader stands. Units and characters read so far are kept last first. -/
inductive Lexer.Mode
  | between
  | word (cs : List Char)
  | string (units : List Nat)
  | escape (units : List Nat)
  | unicode (units : List Nat) (count value : Nat)

structure Lexer where
  mode : Lexer.Mode
  tokens : List Token

namespace Lexer

def start : Lexer := ⟨.between, []⟩

def flush (x : Lexer) : Option Lexer :=
  match x.mode with
  | .word cs => (bare? cs.reverse).map fun j ↦ ⟨.between, .bare j :: x.tokens⟩
  | _ => some x

def stringToken (units : List Nat) : Token :=
  match joinUnits units with
  | some cs => .str (String.ofList cs)
  | none => .unpaired

def mark? : Char → Option Token
  | '{' => some .openBrace
  | '}' => some .closeBrace
  | '[' => some .openBracket
  | ']' => some .closeBracket
  | ':' => some .colon
  | ',' => some .comma
  | _ => none

def isBlank (c : Char) : Bool := c = ' ' || c = '\t' || c = '\n' || c = '\r'

def outside (x : Lexer) (c : Char) : Option Lexer :=
  if isBlank c then x.flush
  else match mark? c with
    | some t => x.flush.map fun x ↦ { x with tokens := t :: x.tokens }
    | none =>
      if c = '"' then x.flush.map fun x ↦ { x with mode := .string [] }
      else match x.mode with
        | .word cs => some { x with mode := .word (c :: cs) }
        | _ => some { x with mode := .word [c] }

def step (x : Lexer) (c : Char) : Option Lexer :=
  match x.mode with
  | .between | .word _ => x.outside c
  | .string units =>
    if c = '"' then some ⟨.between, stringToken units.reverse :: x.tokens⟩
    else if c = '\\' then some { x with mode := .escape units }
    else if c.toNat < 0x20 then none
    else some { x with mode := .string (c.toNat :: units) }
  | .escape units =>
    if c = 'u' then some { x with mode := .unicode units 0 0 }
    else (escaped? c).map fun u ↦ { x with mode := .string (u :: units) }
  | .unicode units count value =>
    (hexDigit? c).map fun d ↦
      let value := 16 * value + d
      if count = 3 then { x with mode := .string (value :: units) }
      else { x with mode := .unicode units (count + 1) value }

def finish (x : Lexer) : Option (List Token) :=
  x.flush.bind fun x ↦
    match x.mode with
    | .between => some x.tokens.reverse
    | _ => none

end Lexer

def tokens? (cs : List Char) : Option (List Token) :=
  (cs.foldlM Lexer.step Lexer.start).bind Lexer.finish

/-- An open array or object, with what it holds so far, last first. -/
inductive Frame
  | array (items : List Json)
  | object (members : List (String × Json)) (key : String)

inductive Machine
  | value (stack : List Frame)
  | firstItem (stack : List Frame)
  | key (members : List (String × Json)) (stack : List Frame)
  | firstKey (stack : List Frame)
  | colon (key : String) (members : List (String × Json)) (stack : List Frame)
  | done (j : Json) (stack : List Frame)

namespace Machine

def open? (stack : List Frame) : Token → Option Machine
  | .openBrace => some (.firstKey stack)
  | .openBracket => some (.firstItem stack)
  | .str s => some (.done (.str s) stack)
  | .unpaired => some (.done .unpaired stack)
  | .bare j => some (.done j stack)
  | _ => none

def step : Machine → Token → Option Machine
  | .value stack, t => open? stack t
  | .firstItem stack, .closeBracket => some (.done (.arr []) stack)
  | .firstItem stack, t => open? (.array [] :: stack) t
  | .firstKey stack, .closeBrace => some (.done (.obj []) stack)
  | .firstKey stack, .str k => some (.colon k [] stack)
  | .key members stack, .str k => some (.colon k members stack)
  | .colon k members stack, .colon => some (.value (.object members k :: stack))
  | .done j (.array items :: stack), .comma => some (.value (.array (j :: items) :: stack))
  | .done j (.array items :: stack), .closeBracket =>
    some (.done (.arr (j :: items).reverse) stack)
  | .done j (.object members k :: stack), .comma => some (.key ((k, j) :: members) stack)
  | .done j (.object members k :: stack), .closeBrace =>
    some (.done (.obj ((k, j) :: members).reverse) stack)
  | _, _ => none

end Machine

def parse? (text : String) : Option Json := do
  let ts ← tokens? text.toList
  match ← ts.foldlM Machine.step (Machine.value []) with
  | .done j [] => some j
  | _ => none

end Durability.Json
