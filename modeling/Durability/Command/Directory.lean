import Durability.Command.Run

namespace Durability

abbrev Directory := List (String × String)

namespace Directory

variable (d : Directory)

def name? (path : String) : Option String :=
  go path.toList
where
  go : List Char → Option String
    | '.' :: '/' :: cs => go cs
    | cs => if cs.isEmpty ∨ '/' ∈ cs then none else some (String.ofList cs)

def file? (name : String) : Option String := (d.find? (·.1 = name)).map (·.2)

def read (path : String) : Option String := (name? path).bind d.file?

def put (name text : String) : Directory :=
  if (d.file? name).isSome then d.map fun f ↦ if f.1 = name then (name, text) else f
  else d ++ [(name, text)]

def news (after : Directory) : Directory := after.filter fun f ↦ d.file? f.1 ≠ some f.2

end Directory

structure Result where
  files : Directory
  stdout : String
  ending : Ending

namespace Result

/-- Carries out effects one by one, and `ending` after them; a file that cannot be written is the end
of it. -/
def perform (ending : Ending) (r : Result) : List Effect → Result
  | [] => { r with ending := ending }
  | .print text :: more => perform ending { r with stdout := r.stdout ++ text ++ "\n" } more
  | .write path text :: more =>
    match Directory.name? path with
    | some name => perform ending { r with files := r.files.put name text } more
    | none => { r with ending := .refused .fileNotFound }

end Result

def runIn (d : Directory) (args : List String) : Result :=
  match Arguments.parse? args with
  | none => ⟨d, "", .misuse⟩
  | some r =>
    let plan := r.plan (d.read r.program) (d.read r.trace)
    Result.perform plan.ending ⟨d, "", .done⟩ plan.effects

end Durability
