import Durability.Program.Builder

namespace Durability

structure Sample where
  program : Program
  marked : List (Option InstrId)

namespace Sample

abbrev Line := Op × List Value × Int64

def pool : Value := .global ⟨0⟩

def store (line : Int64) : Line := (.store, [pool, .const 1], line)

def flush (line : Int64) : Line := (.flush .clwb, [pool], line)

def fence (line : Int64) : Line := (.fence .sfence, [], line)

def call (f : Nat) (line : Int64) : Line := (.call ⟨f⟩, [], line)

def branch (b : Nat) (line : Int64) : Line := (.branch ⟨b⟩, [], line)

def fork (v : Value) (b c : Nat) (line : Int64) : Line := (.condBranch ⟨b⟩ ⟨c⟩, [v], line)

def other (v : Value) (line : Int64) : Line := (.other, [v], line)

def ret (line : Int64) : Line := (.ret, [], line)

def file : String := "/src/pm/pool.c"

def fill (b : Nat) (lines : List Line) : List BuildStep :=
  .selectBlock ⟨b⟩ :: lines.map fun (op, inputs, line) ↦ .addInstr op inputs (some ⟨file, line⟩)

def body (f first : Nat) (blocks : List (List Line)) : List BuildStep :=
  .beginFunction ⟨f⟩ :: blocks.map (fun _ ↦ .addBlock)
    ++ (blocks.zipIdx first).flatMap (fun (lines, b) ↦ fill b lines) ++ [.endFunction]

def build (steps : List BuildStep) (marked : List (Option Nat)) : Sample :=
  ⟨(Builder.empty.run (.addGlobal "pool" :: steps)).program, marked.map (·.map InstrId.mk)⟩

/-- One block: a store that is flushed and fenced, and one that is flushed twice. -/
def straightLine : Sample :=
  build (.reserve "main" 0 ::
      body 0 0 [[store 10, flush 11, fence 12, store 13, flush 14, flush 15, ret 16]])
    [some 0, some 1, some 2, some 3, some 4, some 5]

/-- A call that stores and flushes, then a call that flushes again, perhaps with a store between. -/
def acrossCalls (storeBetween : Bool) : Sample :=
  build ([.reserve "write_and_flush" 0, .reserve "flush_only" 0, .reserve "main" 0]
      ++ body 0 0 [[store 5, flush 6, ret 7]]
      ++ body 1 1 [[flush 10, ret 11]]
      ++ body 2 2 [call 0 20 :: (if storeBetween then [store 21] else []) ++ [call 1 22, ret 23]])
    [some 3]

def diamond : Sample :=
  let c : Value := .arg ⟨0⟩ 0
  build (.reserve "main" 1 :: body 0 0
      [[store 10, flush 11, fork c 1 2 12], [store 13, branch 3 14], [other c 15, branch 3 15],
        [flush 16, ret 17]])
    [none, some 3, some 5, some 7]

def loop (storeInLoop : Bool) : Sample :=
  let c : Value := .arg ⟨0⟩ 0
  build (.reserve "main" 1 :: body 0 0
      [[store 10, flush 11, branch 1 12], [other c 13, fork c 2 3 13],
        [if storeInLoop then store 14 else other c 14, branch 1 15], [flush 16, ret 17]])
    [some 3, some 3, some 5, some 7]

/-- A store, or a loop that does not store. -/
def loopBesideStore : Sample :=
  let c : Value := .arg ⟨0⟩ 0
  build (.reserve "main" 1 :: body 0 0
      [[store 10, flush 11, fork c 1 2 12], [store 13, branch 4 13], [other c 14, fork c 3 4 14],
        [other c 15, branch 2 15], [flush 16, ret 17]])
    [some 3, some 5, some 9]

def recursion : Sample :=
  build ([.reserve "rec" 0, .reserve "main" 0]
      ++ body 0 0 [[flush 30, call 0 31, ret 32]] ++ body 1 1 [[call 0 40, ret 41]])
    []

/-- Memory from other code goes through a stack slot and a function that hands it back. -/
def throughMemory : Sample :=
  let slot : Value := .instr ⟨2⟩
  build ([.declare "pmem_map_file" .declaration 0, .reserve "id" 1, .reserve "main" 0]
      ++ body 1 0 [[(.ret, [.arg ⟨1⟩ 0], 1)]]
      ++ body 2 1 [[call 0 2, (.alloca, [], 3), (.store, [slot, .instr ⟨1⟩], 4), (.load, [slot], 5),
        (.ptrOffset, [.instr ⟨4⟩], 6), (.call ⟨1⟩, [.instr ⟨5⟩], 7),
        (.flush .clwb, [.instr ⟨6⟩], 8), ret 9]])
    []

end Sample

end Durability
