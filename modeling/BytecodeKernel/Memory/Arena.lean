import BytecodeKernel.Bytes.BigEndian
import BytecodeKernel.Memory.Blocks
import BytecodeKernel.Memory.ByteStore
/-!
The arena: one run of bytes that every region is cut from. Address zero is null, so the bytes are
those at `1` to `capacity`. All bounds are checked here. An operation that may fail either succeeds
as a whole or leaves the arena as it was; only `concatCopy`, which copies twice, can fail halfway,
and it returns the arena it reached.
-/

namespace BytecodeKernel

/-- A slot of the operand stack as eight bytes. -/
def slotBytes (v : Int64) : List UInt8 :=
  BigEndian.encode 8 v.toUInt64.toNat

/-- The slot that eight bytes hold. -/
def slotOfBytes (bytes : List UInt8) : Int64 :=
  (UInt64.ofNat (BigEndian.decode bytes)).toInt64

theorem slotOfBytes_slotBytes (v : Int64) : slotOfBytes (slotBytes v) = v := by
  have h : v.toUInt64.toNat < BigEndian.limit 8 := v.toUInt64.toNat_lt
  simp [slotOfBytes, slotBytes, BigEndian.decode_encode h]

structure Arena where
  store : ByteStore
  /-- The number of bytes, and the highest address. -/
  capacity : Nat
  /-- The capacity may grow up to here. -/
  limit : Nat
  blocks : Blocks

namespace Arena

/-- The highest capacity whose addresses, and the end behind them, all fit in 32 bits. -/
def maxCapacity : Nat := addressLimit - 2

/-- An empty arena that may grow. The bounds are drawn into the range that addresses allow. -/
def withLimit (capacity limit : Nat) : Arena :=
  let capacity := min capacity maxCapacity
  { store := {}
    capacity
    limit := max capacity (min limit maxCapacity)
    blocks := .ofSize 1 capacity }

/-- An empty arena of fixed size. -/
def ofCapacity (capacity : Nat) : Arena :=
  withLimit capacity capacity

/-- Whether `length` bytes from `addr` on all lie in the arena. -/
def InRange (a : Arena) (addr length : Nat) : Prop :=
  addr ≠ 0 ∧ addr + length ≤ a.capacity + 1

instance (a : Arena) (addr length : Nat) : Decidable (a.InRange addr length) :=
  inferInstanceAs (Decidable (_ ∧ _))

def read (a : Arena) (addr length : Nat) : Except MemoryError (List UInt8) :=
  if a.InRange addr length then .ok (a.store.read addr length)
  else .error (.outOfBounds addr length)

def write (a : Arena) (addr : Nat) (bytes : List UInt8) : Except MemoryError Arena :=
  if a.InRange addr bytes.length then .ok { a with store := a.store.write addr bytes }
  else .error (.outOfBounds addr bytes.length)

/-- Copies `length` bytes, as they were before, wherever the two ranges lie. The source is checked
first. -/
def copy (a : Arena) (dst src length : Nat) : Except MemoryError Arena := do
  let bytes ← a.read src length
  if a.InRange dst length then return { a with store := a.store.write dst bytes }
  throw (.outOfBounds dst length)

/-- Copies `length` bytes from `srcA` and behind them `length` bytes from `srcB`. The destination is
checked in full beforehand, each source only when its turn comes. -/
def concatCopy (a : Arena) (dst srcA srcB length : Nat) : Except MemoryError Unit × Arena :=
  let both := min (2 * length) (addressLimit - 1)
  if addressLimit ≤ dst + length then (.error (.outOfBounds dst length), a)
  else if ¬ a.InRange dst both then (.error (.outOfBounds dst both), a)
  else match a.copy dst srcA length with
    | .error e => (.error e, a)
    | .ok a =>
      match a.copy (dst + length) srcB length with
      | .error e => (.error e, a)
      | .ok a => (.ok (), a)

def getByte (a : Arena) (addr : Nat) : Except MemoryError UInt8 := do
  return (← a.read addr 1).headD 0

/-- The number in two's complement that `width` bytes hold. -/
def getSigned (a : Arena) (width addr : Nat) : Except MemoryError Int := do
  return BigEndian.decodeSigned (← a.read addr width)

def getSlot (a : Arena) (addr : Nat) : Except MemoryError Int64 := do
  return slotOfBytes (← a.read addr 8)

/-- Writes the low `width` bytes of a number. -/
def setSigned (a : Arena) (width addr : Nat) (v : Int) : Except MemoryError Arena :=
  a.write addr (BigEndian.encodeSigned width v)

def setSlot (a : Arena) (addr : Nat) (v : Int64) : Except MemoryError Arena :=
  a.write addr (slotBytes v)

def allocate (a : Arena) (size : Nat) : Except MemoryError (Nat × Arena) := do
  let (addr, blocks) ← a.blocks.allocate size
  return (addr, { a with blocks })

/-- Allocates, and clears the first `length` bytes. -/
def calloc (a : Arena) (size length : Nat) : Except MemoryError (Nat × Arena) := do
  if size < length then throw (.invalidLength size length)
  let (addr, a) ← a.allocate size
  return (addr, ← a.write addr (List.replicate length 0))

/-- Frees the live block that starts at an address. -/
def free (a : Arena) (addr : Nat) : Except MemoryError Arena := do
  return { a with blocks := ← a.blocks.release addr }

/-- Frees a block if there is one at the address. -/
def discard (a : Arena) (addr : Nat) : Arena :=
  match a.free addr with
  | .ok a => a
  | .error _ => a

def sizeOf (a : Arena) (addr : Nat) : Except MemoryError Nat :=
  match a.blocks.sizeOf? addr with
  | some size => .ok size
  | none => .error (.invalidPointer addr)

/-- Copies a live block to a fresh one of another size. The old block stays live. -/
def tryReallocate (a : Arena) (addr size : Nat) : Except MemoryError (Nat × Arena) := do
  let old ← a.sizeOf addr
  let (moved, a) ← a.allocate size
  return (moved, ← a.copy moved addr (min old size))

/-- Like `tryReallocate`, and gives back the old address where that fails. -/
def reallocate (a : Arena) (addr size : Nat) : Nat × Arena :=
  match a.tryReallocate addr size with
  | .ok result => result
  | .error _ => (addr, a)

/-- Makes sure that one block of `size` bytes can be allocated. Grows by that much when no free
block is large enough, and says whether it grew. -/
def reserve (a : Arena) (size : Nat) : Except MemoryError (Bool × Arena) :=
  if size ≤ a.blocks.largestFree then .ok (false, a)
  else if a.limit < a.capacity + size then
    .error (.growthLimit (a.capacity + size) a.limit)
  else .ok (true, { a with capacity := a.capacity + size, blocks := a.blocks.extend size })

/-- Reserves if that is possible. -/
def reserveOrKeep (a : Arena) (size : Nat) : Arena :=
  match a.reserve size with
  | .ok (_, a) => a
  | .error _ => a

/-- A slot that was written is read back. -/
theorem getSlot_of_setSlot {a after : Arena} {addr : Nat} {v : Int64}
    (h : a.setSlot addr v = .ok after) : after.getSlot addr = .ok v := by
  have hlength : (slotBytes v).length = 8 := BigEndian.length_encode 8 _
  simp only [setSlot, write] at h
  split at h
  · rename_i hrange
    cases h
    rw [hlength] at hrange
    have hread : (a.store.write addr (slotBytes v)).read addr 8 = slotBytes v := by
      rw [← hlength]
      exact ByteStore.read_write _ _ _
    have hrange' : Arena.InRange { a with store := a.store.write addr (slotBytes v) } addr 8 :=
      hrange
    simp only [getSlot, read, hrange', if_true, hread, bind, Except.bind, pure, Except.pure,
      slotOfBytes_slotBytes]
  · contradiction

end Arena

end BytecodeKernel
