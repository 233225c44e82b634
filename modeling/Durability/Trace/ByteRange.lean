import Durability.Text

namespace Durability

structure ByteRange where
  address : UInt64
  length : UInt64
deriving DecidableEq

namespace ByteRange

variable (a b : ByteRange)

def start : Nat := a.address.toNat

/-- One past the last byte, at most the largest address. -/
def stop : Nat := min (a.address.toNat + a.length.toNat) (UInt64.size - 1)

def overlaps : Bool := a.start < b.stop && b.start < a.stop

def inOneLine (size : Nat) : Bool :=
  a.start / size == max (a.stop - 1) a.start / size

def render : String := s!"0x{Text.hex a.address.toNat}+{a.length.toNat}"

end ByteRange

end Durability
