import Durability.Json.Basic

namespace Durability.Json

def hexByte (n : Nat) : List Char := [Nat.digitChar (n / 16), Nat.digitChar (n % 16)]

/-- How a character stands inside a string: only the quote, the backslash and the control characters
below the blank are escaped. -/
def escape (c : Char) : List Char :=
  match c with
  | '"' => ['\\', '"']
  | '\\' => ['\\', '\\']
  | '\n' => ['\\', 'n']
  | '\r' => ['\\', 'r']
  | '\t' => ['\\', 't']
  | c =>
    if c.toNat = 8 then ['\\', 'b']
    else if c.toNat = 12 then ['\\', 'f']
    else if c.toNat < 0x20 then '\\' :: 'u' :: '0' :: '0' :: hexByte c.toNat
    else [c]

def quote (s : String) : String := "\"" ++ String.ofList (s.toList.flatMap escape) ++ "\""

def leaf : Json → String
  | null => "null"
  | bool b => if b then "true" else "false"
  | int n => toString n
  | decimal text => text
  | str s => quote s
  | unpaired => "\"\\ud800\""
  | arr _ => "[]"
  | obj _ => "\x7b\x7d"

def margin (depth : Nat) : String := "\n" ++ String.ofList (List.replicate (2 * depth) ' ')

mutual

/-- On several lines; the line that the text starts on is `depth` levels deep. -/
def pretty (depth : Nat) : Json → String
  | arr (j :: js) =>
    "[" ++ margin (depth + 1) ++ pretty (depth + 1) j ++ prettyItems (depth + 1) js
      ++ margin depth ++ "]"
  | obj ((k, j) :: ms) =>
    "\x7b" ++ margin (depth + 1) ++ quote k ++ ": " ++ pretty (depth + 1) j
      ++ prettyMembers (depth + 1) ms ++ margin depth ++ "\x7d"
  | j => leaf j

def prettyItems (depth : Nat) : List Json → String
  | [] => ""
  | j :: js => "," ++ margin depth ++ pretty depth j ++ prettyItems depth js

def prettyMembers (depth : Nat) : List (String × Json) → String
  | [] => ""
  | (k, j) :: ms =>
    "," ++ margin depth ++ quote k ++ ": " ++ pretty depth j ++ prettyMembers depth ms

end

mutual

def compact : Json → String
  | arr (j :: js) => "[" ++ compact j ++ compactItems js ++ "]"
  | obj ((k, j) :: ms) => "\x7b" ++ quote k ++ ":" ++ compact j ++ compactMembers ms ++ "\x7d"
  | j => leaf j

def compactItems : List Json → String
  | [] => ""
  | j :: js => "," ++ compact j ++ compactItems js

def compactMembers : List (String × Json) → String
  | [] => ""
  | (k, j) :: ms => "," ++ quote k ++ ":" ++ compact j ++ compactMembers ms

end

end Durability.Json
