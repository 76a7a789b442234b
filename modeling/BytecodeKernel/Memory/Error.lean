import BytecodeKernel.Address
/-!
Why an allocation or an access of memory is refused.
-/

namespace BytecodeKernel

inductive MemoryError where
  /-- No free block is large enough, though the free blocks together may be. -/
  | outOfMemory (requested largest : Nat)
  | zeroSize
  /-- More bytes were to be cleared than allocated. -/
  | invalidLength (size length : Nat)
  /-- The address is not the start of a live block. -/
  | invalidPointer (addr : Nat)
  | outOfBounds (addr length : Nat)
  | growthLimit (requested limit : Nat)
deriving DecidableEq

namespace MemoryError

def message : MemoryError → String
  | outOfMemory requested largest =>
    s!"cannot allocate {requested} bytes: largest free block is {largest} bytes"
  | zeroSize => "zero-sized allocation"
  | invalidLength size length => s!"cannot clear {length} bytes of a {size} byte allocation"
  | invalidPointer addr => s!"{Address.text addr} is not a live allocation"
  | outOfBounds addr length =>
    s!"access of {length} bytes at {Address.text addr} is out of bounds"
  | growthLimit requested limit =>
    s!"arena cannot grow to {requested} bytes (limit {limit})"

end MemoryError

end BytecodeKernel
