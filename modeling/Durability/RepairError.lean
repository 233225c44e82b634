import Durability.Fix.Basic
import Durability.Program.Edit
import Durability.Trace.Event

namespace Durability

inductive Anchor
  | storeOrFlush
  | redundantFlush
  | earlierFlush
deriving DecidableEq

def Anchor.name : Anchor → String
  | .storeOrFlush => "store or flush"
  | .redundantFlush => "redundant flush"
  | .earlierFlush => "original flush"

inductive CapabilityError
  | noAddress (i : InstrId)
  | noFlushAddress (op : Op)
  | notAFlush (op : Op)
  | edit (cause : EditError)
deriving DecidableEq

def CapabilityError.message : CapabilityError → String
  | .noAddress i => s!"{i} has no address operand"
  | .noFlushAddress op => s!"Cannot derive a flush address from {op.render}"
  | .notAFlush op => s!"Expected a flush, got {op.render}"
  | .edit cause => cause.message

inductive RepairError
  | unreadableTrace
  | unknownSource (name : String)
  | unknownEvent (name : String)
  | missingField (index : Nat) (event field : String)
  | unreadableProgram
  | invalidProgram (cause : ProgramError)
  | detachedInstr (i : InstrId)
  | missingBody (function : String)
  | addressCount (index count : Nat)
  | crossesLine (index : Nat) (range : ByteRange)
  | anchorNotFound (bug : Nat) (what : Anchor)
  | contradictoryState (bug index : Nat)
  | partialOverlap (bug index : Nat)
  | conflictingFixes (i : InstrId) (existing incoming : Fix)
  | unhandledFixes (i : InstrId) (existing incoming : Fix)
  | recursion (function : String) (call : InstrId)
  | invalidLeaf (node : Nat)
  | noLeaves (start stop : UInt64)
  | unmapped (loc : Location)
  | ambiguous (loc : Location) (count : Nat)
  | notACallSite (loc : Location)
  | capability (kind : FixKind) (i : InstrId) (cause : CapabilityError)
  | unsupportedFix (kind : FixKind)
  | fileNotFound
deriving DecidableEq

namespace RepairError

/-- The class of an error, which several causes may share. -/
def kind : RepairError → String
  | unreadableTrace | unknownSource _ => "TraceParse"
  | unknownEvent _ => "UnknownEventType"
  | missingField .. => "MissingField"
  | unreadableProgram | invalidProgram _ | detachedInstr _ | missingBody _ => "InvalidProgram"
  | addressCount .. => "UnsupportedAddressCount"
  | crossesLine .. => "CrossCacheLine"
  | anchorNotFound .. => "AnchorNotFound"
  | contradictoryState .. => "ContradictoryState"
  | partialOverlap .. => "PartialFlushOverlap"
  | conflictingFixes .. => "ConflictingFixes"
  | unhandledFixes .. => "UnhandledFixCombination"
  | recursion .. => "UnsupportedRecursion"
  | invalidLeaf _ => "InvalidLeaf"
  | noLeaves .. => "NoLeaves"
  | unmapped _ => "UnmappedLocation"
  | ambiguous .. => "AmbiguousLocation"
  | notACallSite _ => "NotACallSite"
  | capability .. => "CapabilityFailure"
  | unsupportedFix _ => "UnsupportedFix"
  | fileNotFound => "Io"

def message : RepairError → String
  | unreadableTrace => "could not parse trace"
  | unknownSource name => s!"could not parse trace: unknown trace source \x60{name}\x60"
  | unknownEvent name => s!"unknown trace event type \x60{name}\x60"
  | missingField index event field =>
    s!"trace event {index} (\x60{event}\x60) is missing field \x60{field}\x60"
  | unreadableProgram => "could not load program"
  | invalidProgram cause => s!"could not load program: {cause.message}"
  | detachedInstr i => s!"could not load program: {i} is detached"
  | missingBody function => s!"could not load program: {function} has no body"
  | addressCount index count =>
    s!"trace event {index} carries {count} addresses, expected exactly one"
  | crossesLine index range =>
    s!"trace event {index} covers {range.render}, which crosses a cache line"
  | anchorNotFound bug what => s!"no {what.name} found before bug at trace index {bug}"
  | contradictoryState bug index =>
    s!"flush at trace index {index} precedes bug {bug}, but a fence was also seen"
  | partialOverlap bug index =>
    s!"flush at trace index {index} partially overlaps the address of bug {bug}"
  | conflictingFixes i existing incoming =>
    s!"conflicting fixes at {i}: {existing.render} vs {incoming.render}"
  | unhandledFixes i existing incoming =>
    s!"unhandled fix combination at {i}: {existing.render} vs {incoming.render}"
  | recursion function call =>
    s!"recursive call into \x60{function}\x60 at {call} is not supported"
  | invalidLeaf node => s!"context graph leaf {node} is neither the end block nor a terminator"
  | noLeaves start stop =>
    s!"context graph between trace events {start.toNat} and {stop.toNat} has no leaves"
  | unmapped loc => s!"no instruction is mapped to {loc.render}"
  | ambiguous loc count => s!"{loc.render} maps to {count} instructions, expected exactly one"
  | notACallSite loc => s!"{loc.render} is not a call into a defined function"
  | capability kind i cause => s!"could not apply {kind.name} at {i}: {cause.message}"
  | unsupportedFix kind => s!"applying {kind.name} fixes is not supported"
  | fileNotFound => "No such file or directory (os error 2)"

end RepairError

end Durability
