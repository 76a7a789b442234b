import BytecodeKernel.Memory.Arena
/-!
Images: programs stored in the arena. Several images may share one block and differ in the offset at
which execution begins.
-/

namespace BytecodeKernel

structure Image where
  /-- The arena address of the first byte. -/
  base : Nat
  length : Nat
  /-- The offset at which execution begins. -/
  entry : Nat
deriving DecidableEq

namespace Image

/-- Stores a program in a fresh block. -/
def load (bytes : List UInt8) (a : Arena) : Except MemoryError (Image × Arena) := do
  if addressLimit ≤ bytes.length then throw (.outOfMemory (addressLimit - 1) 0)
  let (base, a) ← a.allocate bytes.length
  return ({ base, length := bytes.length, entry := 0 }, ← a.write base bytes)

/-- The same block, entered elsewhere. -/
def enteredAt (i : Image) (entry : Nat) : Image :=
  { i with entry }

/-- The arena address of the byte at an offset. -/
def addressOf? (i : Image) (offset : Nat) : Option Nat :=
  if offset < i.length then Address.add? i.base offset else none

end Image

end BytecodeKernel
