import Durability.Settings

namespace Durability

structure Request where
  program : String
  trace : String
  output : Option String
  report : Option String
  reportOnly : Bool
  cacheLineSize : Nat
  flags : List Flag
deriving DecidableEq

namespace Arguments

inductive Valued
  | output
  | report
  | cacheLineSize
  | log
  | flag
deriving DecidableEq

inductive Switch
  | reportOnly
  | disableTerminal
  | blockTerminal
  | debug
deriving DecidableEq

inductive Part
  | path (text : String)
  | valued (option : Valued) (value : String)
  | switch (option : Switch)
deriving DecidableEq

def valuedOfLong? : String → Option Valued
  | "output" => some .output
  | "report" => some .report
  | "cache-line-size" => some .cacheLineSize
  | "log" => some .log
  | "advanced-config" => some .flag
  | _ => none

def switchOfLong? : String → Option Switch
  | "report-only" => some .reportOnly
  | "debug-disable-terminal-logging" => some .disableTerminal
  | "debug-forced-blocking-terminal-logging" => some .blockTerminal
  | "debug" => some .debug
  | _ => none

/-- Whether an argument is one or more options. A single dash is a path. -/
def isOption (arg : String) : Bool := arg.startsWith "-" && arg != "-"

inductive Reading
  | parts (ps : List Part)
  /-- The last option of the argument has its value in the next one. -/
  | awaits (ps : List Part) (option : Valued)
  | endOfOptions

def longOption? (text : List Char) : Option Reading :=
  let name := String.ofList (text.takeWhile (· != '='))
  match text.dropWhile (· != '=') with
  | [] =>
    match switchOfLong? name with
    | some s => some (.parts [.switch s])
    | none => (valuedOfLong? name).map (.awaits [])
  | _ :: value => (valuedOfLong? name).map fun v ↦ .parts [.valued v (String.ofList value)]

/-- A run of one-letter options. One that takes a value takes the rest of the run, if there is any. -/
def shortOptions? (ps : List Part) : List Char → Option Reading
  | [] => some (.parts ps)
  | 'd' :: cs => shortOptions? (ps ++ [.switch .debug]) cs
  | ['Z'] => some (.awaits ps .flag)
  | 'Z' :: '=' :: cs => some (.parts (ps ++ [.valued .flag (String.ofList cs)]))
  | 'Z' :: cs => some (.parts (ps ++ [.valued .flag (String.ofList cs)]))
  | _ => none

def read? (arg : String) : Option Reading :=
  if !isOption arg then some (.parts [.path arg])
  else match arg.toList with
    | ['-', '-'] => some .endOfOptions
    | '-' :: '-' :: text => longOption? text
    | '-' :: text => shortOptions? [] text
    | _ => none

def parts? : List String → Option (List Part)
  | [] => some []
  | arg :: args => do
    match ← read? arg with
    | .parts ps => return ps ++ (← parts? args)
    | .endOfOptions => return args.map .path
    | .awaits ps option =>
      match args with
      | [] => none
      | value :: args =>
        if isOption value then none
        else return ps ++ .valued option value :: (← parts? args)

def paths (ps : List Part) : List String :=
  ps.filterMap fun
    | .path text => some text
    | _ => none

def valuesOf (option : Valued) (ps : List Part) : List String :=
  ps.filterMap fun
    | .valued o value => if o = option then some value else none
    | _ => none

def once? (option : Valued) (ps : List Part) : Option (Option String) :=
  match valuesOf option ps with
  | [] => some none
  | [value] => some (some value)
  | _ => none

def set? (option : Switch) (ps : List Part) : Option Bool :=
  match ps.count (.switch option) with
  | 0 => some false
  | 1 => some true
  | _ => none

def number? (text : String) : Option Nat :=
  let cs := match text.toList with
    | '+' :: cs => cs
    | cs => cs
  if cs.isEmpty || !cs.all Char.isDigit then none
  else
    let n := cs.foldl (fun n c ↦ 10 * n + (c.toNat - 48)) 0
    if n < UInt64.size then some n else none

def request? (ps : List Part) : Option Request := do
  let [program, trace] := paths ps | none
  let _ ← set? .disableTerminal ps
  let _ ← set? .blockTerminal ps
  let _ ← once? .log ps
  return {
    program, trace
    output := ← once? .output ps
    report := ← once? .report ps
    reportOnly := ← set? .reportOnly ps
    cacheLineSize := ← number? ((← once? .cacheLineSize ps).getD "64")
    flags := ← (valuesOf .flag ps).mapM Flag.ofName? }

def parse? : List String → Option Request
  | "repair" :: args => (parts? args).bind request?
  | _ => none

end Arguments

end Durability
