import Durability.Yaml.Node
import Durability.Yaml.Token

namespace Durability.Yaml

/-- A token with the colon behind a key taken into it. -/
inductive Lexeme.Kind
  | scalar (text : String) (plain : Bool)
  | key (text : String) (plain : Bool)
  | other (kind : Token.Kind)

structure Lexeme where
  kind : Lexeme.Kind
  line : Nat
  column : Nat
  endLine : Nat

/-- A key is a scalar on one line with a colon behind it. -/
def lexemes : List Token → List Lexeme
  | t :: u :: ts =>
    match t.kind, u.kind with
    | .scalar text plain, .colon =>
      if t.canBeKey ∧ t.line = u.line then
        ⟨.key text plain, t.line, t.column, t.endLine⟩ :: lexemes ts
      else ⟨.scalar text plain, t.line, t.column, t.endLine⟩ :: lexemes (u :: ts)
    | .scalar text plain, _ =>
      ⟨.scalar text plain, t.line, t.column, t.endLine⟩ :: lexemes (u :: ts)
    | kind, _ => ⟨.other kind, t.line, t.column, t.endLine⟩ :: lexemes (u :: ts)
  | [t] =>
    match t.kind with
    | .scalar text plain => [⟨.scalar text plain, t.line, t.column, t.endLine⟩]
    | kind => [⟨.other kind, t.line, t.column, t.endLine⟩]
  | [] => []

/-- A collection that is open, with its items or members so far, last first. A mapping keeps the key
whose value is being read. -/
inductive Frame
  | blockSeq (column : Nat) (items : List Yaml)
  | blockMap (column : Nat) (members : List (Yaml × Yaml)) (key : Yaml)
  | flowSeq (items : List Yaml)
  | flowMap (members : List (Yaml × Yaml))
  | flowPair (members : List (Yaml × Yaml)) (key : Yaml)

inductive Want
  /-- A node, or nothing at all. `line` is the line of the key or dash before it. -/
  | node (line : Nat)
  /-- What follows a plain scalar: in block style it may go on over several lines. -/
  | plain (text : String) (endLine : Nat)
  | next (y : Yaml)
  | flowKey
  | flowItem

structure Machine where
  want : Want
  stack : List Frame

namespace Machine

def begin? (stack : List Frame) (x : Lexeme) : Option Machine :=
  match x.kind with
  | .scalar text true => some ⟨.plain text x.endLine, stack⟩
  | .scalar text false => some ⟨.next (.scalar text false), stack⟩
  | .key text plain =>
    some ⟨.node x.line, .blockMap x.column [] (.scalar text plain) :: stack⟩
  | .other .dash => some ⟨.node x.line, .blockSeq x.column [] :: stack⟩
  | .other .openBracket => some ⟨.flowItem, .flowSeq [] :: stack⟩
  | .other .openBrace => some ⟨.flowKey, .flowMap [] :: stack⟩
  | .other _ => none

def beginFlow? (stack : List Frame) (x : Lexeme) : Option Machine :=
  match x.kind with
  | .key _ _ => none
  | _ => begin? stack x

def isDash (x : Lexeme) : Bool :=
  match x.kind with
  | .other .dash => true
  | _ => false

def close? (y : Yaml) : Frame → Option Yaml
  | .blockSeq _ items => some (.seq (y :: items).reverse)
  | .blockMap _ members key => some (.map ((key, y) :: members).reverse)
  | _ => none

/-- What `x` does when the node `y` is complete. -/
def after? (x : Lexeme) (y : Yaml) : List Frame → Option Machine
  | [] => none
  | .blockSeq column items :: stack =>
    if x.column = column ∧ isDash x then some ⟨.node x.line, .blockSeq column (y :: items) :: stack⟩
    else if column < x.column then none
    else after? x (.seq (y :: items).reverse) stack
  | .blockMap column members key :: stack =>
    if x.column = column then
      match x.kind with
      | .key text plain =>
        some ⟨.node x.line, .blockMap column ((key, y) :: members) (.scalar text plain) :: stack⟩
      | _ => none
    else if column < x.column then none
    else after? x (.map ((key, y) :: members).reverse) stack
  | .flowSeq items :: stack =>
    match x.kind with
    | .other .comma => some ⟨.flowItem, .flowSeq (y :: items) :: stack⟩
    | .other .closeBracket => some ⟨.next (.seq (y :: items).reverse), stack⟩
    | _ => none
  | .flowMap members :: stack =>
    match x.kind with
    | .other .comma => some ⟨.flowKey, .flowMap ((y, empty) :: members) :: stack⟩
    | .other .closeBrace => some ⟨.next (.map ((y, empty) :: members).reverse), stack⟩
    | _ => none
  | .flowPair members key :: stack =>
    match x.kind with
    | .other .comma => some ⟨.flowKey, .flowMap ((key, y) :: members) :: stack⟩
    | .other .closeBrace => some ⟨.next (.map ((key, y) :: members).reverse), stack⟩
    | _ => none

/-- Whether a node that begins with `x` belongs to the innermost collection; `line` is the line of
the key or dash that waits for it. -/
def belongs (line : Nat) (x : Lexeme) : List Frame → Bool
  | .blockSeq column _ :: _ => x.line = line || column < x.column
  | .blockMap column _ _ :: _ =>
    x.line = line || column < x.column || (x.column = column && isDash x)
  | _ => true

/-- The column that a scalar has to stay right of to go on. -/
def margin : List Frame → Option Nat
  | .blockSeq column _ :: _ | .blockMap column _ _ :: _ => some column
  | _ => none

def joinLines (text more : String) (lines : Nat) : String :=
  text ++ (if lines ≤ 1 then " " else String.ofList (List.replicate (lines - 1) '\n')) ++ more

def step (m : Machine) (x : Lexeme) : Option Machine :=
  match m.want, m.stack with
  | .node _, .flowPair members key :: stack =>
    match x.kind with
    | .other .comma | .other .closeBrace => after? x empty m.stack
    | _ => beginFlow? (.flowPair members key :: stack) x
  | .node line, stack => if belongs line x stack then begin? stack x else after? x empty stack
  | .plain text endLine, stack =>
    match x.kind with
    | .scalar more true =>
      if endLine < x.line ∧ (margin stack).all (· < x.column) then
        some ⟨.plain (joinLines text more (x.line - endLine)) x.endLine, stack⟩
      else after? x (.scalar text true) stack
    | _ => after? x (.scalar text true) stack
  | .next y, stack => after? x y stack
  | .flowItem, .flowSeq items :: stack =>
    match x.kind with
    | .other .closeBracket => some ⟨.next (.seq items.reverse), stack⟩
    | _ => beginFlow? (.flowSeq items :: stack) x
  | .flowKey, .flowMap members :: stack =>
    match x.kind with
    | .other .closeBrace => some ⟨.next (.map members.reverse), stack⟩
    | .key text plain => some ⟨.node x.line, .flowPair members (.scalar text plain) :: stack⟩
    | _ => beginFlow? (.flowMap members :: stack) x
  | _, _ => none

def closeAll (y : Yaml) : List Frame → Option Yaml
  | [] => some y
  | f :: stack => (close? y f).bind (closeAll · stack)

def finish (m : Machine) : Option Yaml :=
  match m.want, m.stack with
  | .node _, [] => none
  | .node _, stack => closeAll empty stack
  | .plain text _, stack => closeAll (.scalar text true) stack
  | .next y, stack => closeAll y stack
  | _, _ => none

end Machine

def isMark (kind : Token.Kind) (t : Token) : Bool :=
  match kind, t.kind with
  | .documentStart, .documentStart | .documentEnd, .documentEnd => true
  | _, _ => false

def content (ts : List Token) : List Token :=
  let ts := match ts with
    | t :: ts => if isMark .documentStart t then ts else t :: ts
    | [] => []
  (ts.reverse.dropWhile (isMark .documentEnd)).reverse

def parse? (text : String) : Option Yaml := do
  let xs := lexemes (content (← tokens? text))
  (← xs.foldlM Machine.step ⟨.node 0, []⟩).finish

end Durability.Yaml
