namespace Durability

structure Location where
  function : String
  file : String
  line : Int64
deriving DecidableEq

namespace Location

variable (a b : Location)

/-- A frame without a function or a positive line cannot be found in a program. -/
def isValid : Bool := a.function != "" && 0 < a.line.toInt

/-- Trace and program may know a file under different directories. -/
def filesAgree (s t : String) : Prop := s.toList <:+: t.toList ∨ t.toList <:+: s.toList

instance (s t : String) : Decidable (filesAgree s t) :=
  inferInstanceAs (Decidable (_ ∨ _))

/-- Agreement of functions, lines and files. It is not transitive. -/
def Agrees : Prop := a.function = b.function ∧ a.line = b.line ∧ filesAgree a.file b.file

instance : Decidable (a.Agrees b) := inferInstanceAs (Decidable (_ ∧ _ ∧ _))

def filename : String := String.ofList (a.file.toList.reverse.takeWhile (· != '/')).reverse

def render : String := s!"<{a.function} @ {a.file}:{a.line.toInt}>"

end Location

end Durability
