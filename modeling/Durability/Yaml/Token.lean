namespace Durability.Yaml

inductive Token.Kind
  | scalar (text : String) (plain : Bool)
  | dash
  | colon
  | comma
  | openBrace
  | closeBrace
  | openBracket
  | closeBracket
  | documentStart
  | documentEnd

structure Token where
  kind : Token.Kind
  line : Nat
  column : Nat
  endLine : Nat
  /-- Whether a key may stand here. -/
  canBeKey : Bool

/-- Blanks and line ends inside quotes, which are not kept as they stand. -/
inductive Gap
  | blanks (cs : List Char)
  /-- A line end, which is written as a blank or was escaped, and more of them. -/
  | lines (escaped : Bool) (more : Nat)

def Gap.text : Gap → List Char
  | blanks cs => cs.reverse
  | lines escaped 0 => if escaped then [] else [' ']
  | lines _ (n + 1) => List.replicate (n + 1) '\n'

structure Start where
  line : Nat
  column : Nat
  canBeKey : Bool

/-- What is being read. Texts are kept last character first. -/
inductive Scanner.Mode
  | between
  | comment
  | plain (start : Start) (text blanks : List Char)
  | single (start : Start) (text : List Char) (gap : Gap)
  /-- Right after a quote that another one follows. -/
  | singleQuote (start : Start) (text : List Char)
  | double (start : Start) (text : List Char) (gap : Gap)
  | escape (start : Start) (text : List Char)
  /-- `left` more hexadecimal digits of a character are to come. -/
  | hex (start : Start) (text : List Char) (left value : Nat)

structure Scanner where
  mode : Scanner.Mode
  line : Nat
  column : Nat
  depth : Nat
  /-- Whether a key may begin here; in block style also a sequence. -/
  keyAllowed : Bool
  tokens : List Token

namespace Scanner

def start : Scanner := ⟨.between, 0, 0, 0, true, []⟩

def isBreak (c : Char) : Bool :=
  c = '\n' || c = '\r' || c.toNat = 0x85 || c.toNat = 0x2028 || c.toNat = 0x2029

def isBlank (c : Char) : Bool := c = ' ' || c = '\t'

def endsWord : Option Char → Bool
  | none => true
  | some c => isBlank c || isBreak c

def isFlowMark (c : Char) : Bool := c = ',' || c = '[' || c = ']' || c = '{' || c = '}'

def isAllowed (c : Char) : Bool :=
  let n := c.toNat
  n = 9 || n = 10 || n = 13 || (0x20 ≤ n && n ≤ 0x7e) || n = 0x85
    || (0xa0 ≤ n && n ≤ 0xfffd && n != 0xfeff) || 0x10000 ≤ n

variable (x : Scanner)

def mark : Start := ⟨x.line, x.column, x.keyAllowed⟩

def emit (kind : Token.Kind) (keyAllowed : Bool) : Scanner :=
  { x with
    keyAllowed := keyAllowed
    tokens := ⟨kind, x.line, x.column, x.line, x.keyAllowed⟩ :: x.tokens }

def emitScalar (s : Start) (text : List Char) (isPlain : Bool) : Scanner :=
  let kind := .scalar (String.ofList text.reverse) isPlain
  { x with
    mode := .between
    keyAllowed := false
    tokens := ⟨kind, s.line, s.column, x.line, s.canBeKey⟩ :: x.tokens }

def documentMark? (s : Start) (text : List Char) : Option Token.Kind :=
  if s.column ≠ 0 then none
  else if text = ['-', '-', '-'] then some .documentStart
  else if text = ['.', '.', '.'] then some .documentEnd
  else none

/-- Ends a plain scalar, which may turn out to be a mark between documents. -/
def endPlain (s : Start) (text : List Char) : Scanner :=
  match documentMark? s text with
  | some kind =>
    { x with
      mode := .between
      keyAllowed := false
      tokens := ⟨kind, s.line, s.column, s.line, false⟩ :: x.tokens }
  | none => x.emitScalar s text true

def between (c : Char) (next : Option Char) : Option Scanner :=
  if isBreak c then some { x with keyAllowed := x.keyAllowed || x.depth == 0 }
  else if c = ' ' then some x
  else if c = '\t' then if x.depth = 0 ∧ x.keyAllowed then none else some x
  else if c = '#' then some { x with mode := .comment }
  else match c with
  | '{' => some { x.emit .openBrace true with depth := x.depth + 1 }
  | '[' => some { x.emit .openBracket true with depth := x.depth + 1 }
  | '}' => some { x.emit .closeBrace false with depth := x.depth - 1 }
  | ']' => some { x.emit .closeBracket false with depth := x.depth - 1 }
  | ',' => some (x.emit .comma true)
  | '"' => some { x with mode := .double x.mark [] (.blanks []) }
  | c =>
    if c = Char.ofNat 39 then some { x with mode := .single x.mark [] (.blanks []) }
    else if c = '-' ∧ endsWord next then
      if x.depth = 0 ∧ x.keyAllowed then some (x.emit .dash true) else none
    else if c = ':' ∧ (0 < x.depth ∨ endsWord next) then some (x.emit .colon false)
    else if c = '?' ∧ (0 < x.depth ∨ endsWord next) then none
    else if ['&', '*', '!', '|', '>', '%', '@', Char.ofNat 96].contains c then none
    else some { x with mode := .plain x.mark [c] [] }

def inPlain (s : Start) (text blanks : List Char) (c : Char) (next : Option Char) :
    Option Scanner :=
  if isBlank c then
    match documentMark? s text with
    | some _ => some (x.endPlain s text)
    | none => some { x with mode := .plain s text (c :: blanks) }
  else if isBreak c ∨ (c = '#' ∧ blanks ≠ []) ∨ (c = ':' ∧ endsWord next)
      ∨ (0 < x.depth ∧ isFlowMark c) then
    (x.endPlain s text).between c next
  else if c = ':' ∧ 0 < x.depth ∧ next.any (fun d ↦ isFlowMark d || d = '?') then none
  else some { x with mode := .plain s (c :: (blanks ++ text)) [] }

def widen (gap : Gap) (c : Char) : Gap :=
  match gap with
  | .blanks cs => if isBreak c then .lines false 0 else .blanks (c :: cs)
  | .lines escaped more => if isBreak c then .lines escaped (more + 1) else gap

def inSingle (s : Start) (text : List Char) (gap : Gap) (c : Char) (next : Option Char) :
    Scanner :=
  if c = Char.ofNat 39 then
    let text := gap.text.reverse ++ text
    if next = some (Char.ofNat 39) then { x with mode := .singleQuote s text }
    else x.emitScalar s text false
  else if isBlank c || isBreak c then { x with mode := .single s text (widen gap c) }
  else { x with mode := .single s (c :: (gap.text.reverse ++ text)) (.blanks []) }

def inDouble (s : Start) (text : List Char) (gap : Gap) (c : Char) : Scanner :=
  if c = '"' then x.emitScalar s (gap.text.reverse ++ text) false
  else if c = '\\' then { x with mode := .escape s (gap.text.reverse ++ text) }
  else if isBlank c || isBreak c then { x with mode := .double s text (widen gap c) }
  else { x with mode := .double s (c :: (gap.text.reverse ++ text)) (.blanks []) }

def escaped? : Char → Option Nat
  | '0' => some 0
  | 'a' => some 7
  | 'b' => some 8
  | 't' | '\t' => some 9
  | 'n' => some 10
  | 'v' => some 11
  | 'f' => some 12
  | 'r' => some 13
  | 'e' => some 27
  | ' ' => some 32
  | '"' => some 34
  | '/' => some 47
  | '\\' => some 92
  | 'N' => some 0x85
  | '_' => some 0xa0
  | 'L' => some 0x2028
  | 'P' => some 0x2029
  | _ => none

def hexLength? : Char → Option Nat
  | 'x' => some 2
  | 'u' => some 4
  | 'U' => some 8
  | _ => none

def inEscape (s : Start) (text : List Char) (c : Char) : Option Scanner :=
  if isBreak c then some { x with mode := .double s text (.lines true 0) }
  else match hexLength? c with
  | some n => some { x with mode := .hex s text n 0 }
  | none => (escaped? c).map fun n ↦
    { x with mode := .double s (Char.ofNat n :: text) (.blanks []) }

def hexDigit? (c : Char) : Option Nat :=
  if c.isDigit then some (c.toNat - 48)
  else if 'a' ≤ c ∧ c ≤ 'f' then some (c.toNat - 87)
  else if 'A' ≤ c ∧ c ≤ 'F' then some (c.toNat - 55)
  else none

def inHex (s : Start) (text : List Char) (left value : Nat) (c : Char) : Option Scanner := do
  let value := 16 * value + (← hexDigit? c)
  if 1 < left then return { x with mode := .hex s text (left - 1) value }
  else if value.isValidChar then
    return { x with mode := .double s (Char.ofNat value :: text) (.blanks []) }
  else none

def step (c : Char) (next : Option Char) : Option Scanner :=
  match x.mode with
  | .between => x.between c next
  | .comment =>
    if isBreak c then { x with mode := .between }.between c next else some x
  | .plain s text blanks => x.inPlain s text blanks c next
  | .single s text gap => some (x.inSingle s text gap c next)
  | .singleQuote s text => some { x with mode := .single s (c :: text) (.blanks []) }
  | .double s text gap => some (x.inDouble s text gap c)
  | .escape s text => x.inEscape s text c
  | .hex s text left value => x.inHex s text left value c

def advance (c : Char) : Scanner :=
  if isBreak c then { x with line := x.line + 1, column := 0 }
  else { x with column := x.column + 1 }

def finish : Option (List Token) :=
  match x.mode with
  | .between | .comment => some x.tokens.reverse
  | .plain s text _ => some (x.endPlain s text).tokens.reverse
  | _ => none

def scan : Scanner → List Char → Option Scanner
  | x, [] => some x
  | x, c :: cs => do
    let x ← x.step c cs.head?
    scan (x.advance c) cs

end Scanner

/-- A line end of two characters counts as one. -/
def joinBreaks : List Char → List Char
  | '\r' :: '\n' :: cs => '\n' :: joinBreaks cs
  | c :: cs => c :: joinBreaks cs
  | [] => []

def tokens? (text : String) : Option (List Token) :=
  let cs := joinBreaks text.toList
  if cs.all Scanner.isAllowed then (Scanner.start.scan cs).bind Scanner.finish else none

end Durability.Yaml
