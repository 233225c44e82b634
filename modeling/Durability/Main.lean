import Durability.Command.Run

namespace Durability

def readFile? (path : String) : IO (Option String) := do
  try return some (← IO.FS.readFile path)
  catch _ => return none

def perform : Effect → IO Bool
  | .print text => do
    IO.println text
    return true
  | .write path text => do
    try
      IO.FS.writeFile path text
      return true
    catch _ => return false

def performAll (ending : Ending) : List Effect → IO Ending
  | [] => return ending
  | e :: es => do
    if ← perform e then performAll ending es else return .refused .fileNotFound

def execute (args : List String) : IO Ending := do
  match Arguments.parse? args with
  | none => return .misuse
  | some r =>
    let plan := r.plan (← readFile? r.program) (← readFile? r.trace)
    performAll plan.ending plan.effects

end Durability

def main (args : List String) : IO UInt32 := do
  let ending ← Durability.execute args
  if let some line := ending.errorLine? then IO.eprintln line
  return UInt32.ofNat ending.exitCode
