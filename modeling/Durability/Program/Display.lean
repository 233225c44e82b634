import Durability.Program.Listing

namespace Durability

structure Display where
  showsLines : Bool
deriving DecidableEq

namespace Display

def plain : Display := ⟨false⟩

/-- The display after a rendering that had lines turned on. They are turned off again at the end of
the rendering, which one that meets a fault does not come to. -/
def after {α : Type} (d : Display) : Except Fault α → Display
  | .ok _ => d
  | .error _ => ⟨true⟩

def instr (d : Display) (ins : Instruction) : String := ins.render d.showsLines

def listing (d : Display) (p : Program) : Except Fault String := p.listing d.showsLines

end Display

end Durability
