namespace Durability.Text

def brackets (items : List String) : String := "[" ++ ", ".intercalate items ++ "]"

def braces (items : List String) : String := "\x7b" ++ ", ".intercalate items ++ "\x7d"

def record (name : String) (fields : List String) : String :=
  name ++ " \x7b " ++ ", ".intercalate fields ++ " \x7d"

def hex (n : Nat) : String := String.ofList (Nat.toDigits 16 n)

def optional {α : Type} (text : α → String) : Option α → String
  | none => "None"
  | some a => "Some(" ++ text a ++ ")"

def bool (b : Bool) : String := if b then "true" else "false"

end Durability.Text
