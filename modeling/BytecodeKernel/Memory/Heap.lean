import BytecodeKernel.Memory.Tenant
/-!
Heaps: a region of the arena with a block table of its own. Addresses inside a heap count from one,
so zero is null there too; heap address `a` stands for arena address `base + (a - 1)`. Words outside
the region are soft: they read as zero, and what is written there is lost.
-/

namespace BytecodeKernel

structure Heap where
  /-- The arena address of the region. -/
  base : Nat
  /-- The size of the region in bytes. -/
  size : Nat
  blocks : Blocks

abbrev HeapM := TenantM MemoryError Heap

namespace Heap

/-- A heap in a fresh region. -/
def create (size : Nat) (a : Arena) : Except MemoryError (Heap × Arena) := do
  let (base, a) ← a.allocate size
  return ({ base, size, blocks := .ofSize 1 size }, a)

/-- Gives the region back. -/
def release (h : Heap) (a : Arena) : Arena :=
  a.discard h.base

/-- The arena address of `length` bytes from `addr` on, if the region holds them all. -/
def locate? (h : Heap) (addr length : Nat) : Option Nat :=
  if addr = 0 ∨ h.size < addr - 1 + length then none else Address.add? h.base (addr - 1)

/-- Makes room for a block of `size` bytes when no free block holds it: moves to a region larger by
that much, whose tail is free. Where the arena has no such region the heap stays as it is. -/
def reserve (size : Nat) : HeapM Unit := fun (h, a) =>
  let grown := h.size + size
  if size ≤ h.blocks.largestFree ∨ addressLimit ≤ grown then .ok () (h, a)
  else
    let a := a.reserveOrKeep grown
    match a.tryReallocate h.base grown with
    | .error _ => .ok () (h, a)
    | .ok (moved, a) =>
      .ok () ({ base := moved, size := grown, blocks := h.blocks.extend size }, a.discard h.base)

/-- Allocates in the heap, after growing it if need be. -/
def malloc (size : Nat) : HeapM Nat := do
  reserve size
  let h ← TenantM.self
  match h.blocks.allocate size with
  | .ok (addr, blocks) =>
    TenantM.modifySelf ({ · with blocks })
    return addr
  | .error e => throw e

/-- Allocates, and clears the first `length` bytes. -/
def calloc (size length : Nat) : HeapM Nat := do
  if size < length then throw (.invalidLength size length)
  let addr ← malloc size
  match (← TenantM.self).locate? addr length with
  | some phys => TenantM.updateArena id (·.write phys (List.replicate length 0))
  | none => pure ()
  return addr

def free (addr : Nat) : HeapM Unit := do
  match (← TenantM.self).blocks.release addr with
  | .ok blocks => TenantM.modifySelf ({ · with blocks })
  | .error e => throw e

def sizeOf (h : Heap) (addr : Nat) : Except MemoryError Nat :=
  match h.blocks.sizeOf? addr with
  | some size => .ok size
  | none => .error (.invalidPointer addr)

/-- The bytes from `addr` on, or `none` outside the region. -/
def read? (h : Heap) (a : Arena) (addr length : Nat) : Option (List UInt8) := do
  (a.read (← h.locate? addr length) length).toOption

def getByte (h : Heap) (a : Arena) (addr : Nat) : UInt8 :=
  ((h.read? a addr 1).getD []).headD 0

def getSigned (h : Heap) (a : Arena) (width addr : Nat) : Int :=
  ((h.read? a addr width).map BigEndian.decodeSigned).getD 0

/-- Writes bytes from `addr` on, or does nothing when the region does not hold them all. -/
def write (h : Heap) (a : Arena) (addr : Nat) (bytes : List UInt8) : Arena :=
  match h.locate? addr bytes.length with
  | none => a
  | some phys =>
    match a.write phys bytes with
    | .ok a => a
    | .error _ => a

/-- Writes the low `width` bytes of a number. -/
def setSigned (h : Heap) (a : Arena) (width addr : Nat) (v : Int) : Arena :=
  h.write a addr (BigEndian.encodeSigned width v)

/-- Copies bytes of the arena into the heap. -/
def copyIn (h : Heap) (a : Arena) (dst src length : Nat) : Except MemoryError Arena :=
  match h.locate? dst length with
  | some phys => a.copy phys src length
  | none => .error (.outOfBounds dst length)

/-- The bytes of the live block that starts at `addr`. -/
def readBlock (h : Heap) (a : Arena) (addr : Nat) : Except MemoryError (List UInt8) := do
  let length ← h.sizeOf addr
  match h.locate? addr length with
  | some phys => a.read phys length
  | none => throw (.outOfBounds addr length)

end Heap

end BytecodeKernel
