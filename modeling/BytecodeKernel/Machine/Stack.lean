import BytecodeKernel.Machine.Fault
import BytecodeKernel.Memory.Tenant
/-!
Stacks: a region of eight-byte operand slots, and a second region of call frames that is taken when
the first frame is opened. The operand region grows by `growBytes` when less than `growHeadroom`
bytes are left, and shrinks by as much when more than twice that is unused, never below its first
size. The gap between the two keeps a push and a pop in turn from resizing at every step.
-/

namespace BytecodeKernel

def slotSize : Nat := 8

/-- The step in which operand regions grow and shrink. -/
def growBytes : Nat := 256

/-- With less than this left behind the top, a push grows the region. -/
def growHeadroom : Nat := 32

/-- The number of local slots in a frame. -/
def frameLocals : Nat := 16

def maxFrames : Nat := 64

/-- A frame is the cursor to return to, and its locals. -/
def frameSize : Nat := (1 + frameLocals) * slotSize

structure Stack where
  /-- The arena address of the operand region. -/
  base : Nat
  /-- The size of the operand region in bytes. -/
  size : Nat
  /-- The size the region began with. -/
  initialSize : Nat
  /-- The number of bytes in use. -/
  top : Nat := 0
  /-- The arena address of the frame region, once it is taken. -/
  frames : Option Nat := none
  /-- The number of open frames. -/
  depth : Nat := 0

abbrev StackM := TenantM Fault Stack

namespace Stack

/-- An empty stack in a fresh region, which holds at least one slot with the headroom behind it. -/
def create (size : Nat) (a : Arena) : Except MemoryError (Stack × Arena) := do
  let size := max size (growHeadroom + slotSize)
  let (base, a) ← a.allocate size
  return ({ base, size, initialSize := size }, a)

/-- Gives both regions back. -/
def release (s : Stack) (a : Arena) : Arena :=
  let a := a.discard s.base
  match s.frames with
  | some region => a.discard region
  | none => a

/-- The number of operands. -/
def length (s : Stack) : Nat :=
  s.top / slotSize

/-- The arena address `offset` bytes into a region. -/
def within (region offset : Nat) : StackM Nat :=
  match Address.add? region offset with
  | some addr => pure addr
  | none => throw (.memory (.outOfBounds region offset))

/-- Moves the operands to a region of another size. -/
def resize (size : Nat) : StackM Unit := do
  let s ← TenantM.self
  if s.size < size then
    let _ ← TenantM.onArena .memory (·.reserve size)
  let moved ← TenantM.onArena .memory (·.tryReallocate s.base size)
  TenantM.updateArena .memory (·.free s.base)
  TenantM.modifySelf ({ · with base := moved, size })

/-- Pushes an operand. Growth that the push itself needs must succeed; growth for the headroom
behind it is put off when it fails. -/
def push (v : Int64) : StackM Unit := do
  let s ← TenantM.self
  if s.size < s.top + slotSize then resize (s.size + growBytes)
  let s ← TenantM.self
  let addr ← within s.base s.top
  TenantM.updateArena .memory (·.setSlot addr v)
  TenantM.modifySelf ({ · with top := s.top + slotSize })
  let s ← TenantM.self
  if s.size - s.top < growHeadroom then TenantM.attempt (resize (s.size + growBytes))

/-- Pops the newest operand. A region that could shrink stays as it is when that fails. -/
def pop : StackM Int64 := do
  let s ← TenantM.self
  if s.top < slotSize then throw .stackUnderflow
  TenantM.modifySelf ({ · with top := s.top - slotSize })
  let s ← TenantM.self
  let addr ← within s.base s.top
  let v ← TenantM.ask .memory (·.getSlot addr)
  if s.top + 2 * growBytes < s.size ∧ s.initialSize ≤ s.size - growBytes then
    TenantM.attempt (resize (s.size - growBytes))
  return v

/-- The newest operand. -/
def peek : StackM Int64 := do
  let s ← TenantM.self
  if s.top < slotSize then throw .stackUnderflow
  let addr ← within s.base (s.top - slotSize)
  TenantM.ask .memory (·.getSlot addr)

/-- The operands, oldest first. -/
def operands (s : Stack) (a : Arena) : List Int64 :=
  (List.range s.length).filterMap fun i => do
    (a.getSlot (← Address.add? s.base (i * slotSize))).toOption

/-- The frame region, taken now if it was not before. -/
def frameRegion : StackM Nat := do
  match (← TenantM.self).frames with
  | some region => return region
  | none =>
    let region ← TenantM.onArena .memory (·.allocate (maxFrames * frameSize))
    TenantM.modifySelf ({ · with frames := some region })
    return region

/-- The arena address of a slot of a frame; the cursor is slot zero. -/
def frameSlot (depth slot : Nat) : StackM Nat := do
  let some region := (← TenantM.self).frames | throw .frameUnderflow
  within region (depth * frameSize + slot * slotSize)

/-- Opens a frame that returns to `cursor`, with locals that are zero. -/
def pushFrame (cursor : Nat) : StackM Unit := do
  let s ← TenantM.self
  if maxFrames ≤ s.depth then throw (.frameOverflow maxFrames)
  let _ ← frameRegion
  let addr ← frameSlot s.depth 0
  TenantM.updateArena .memory (·.write addr (List.replicate frameSize 0))
  TenantM.updateArena .memory (·.setSlot addr (Int64.ofNat cursor))
  TenantM.modifySelf ({ · with depth := s.depth + 1 })

/-- The cursor that the newest frame returns to. -/
def peekFrame : StackM Nat := do
  let s ← TenantM.self
  if s.depth = 0 then throw .frameUnderflow
  let addr ← frameSlot (s.depth - 1) 0
  let v ← TenantM.ask .memory (·.getSlot addr)
  return v.toUInt64.toNat % addressLimit

/-- Closes the newest frame and returns its cursor. -/
def popFrame : StackM Nat := do
  let cursor ← peekFrame
  TenantM.modifySelf fun s => { s with depth := s.depth - 1 }
  return cursor

/-- The arena address of a local of the newest frame. -/
def localSlot (index : Nat) : StackM Nat := do
  if frameLocals ≤ index then throw (.invalidLocal index)
  let s ← TenantM.self
  if s.depth = 0 then throw .frameUnderflow
  frameSlot (s.depth - 1) (1 + index)

def getLocal (index : Nat) : StackM Int64 := do
  let addr ← localSlot index
  TenantM.ask .memory (·.getSlot addr)

def setLocal (index : Nat) (v : Int64) : StackM Unit := do
  let addr ← localSlot index
  TenantM.updateArena .memory (·.setSlot addr v)

end Stack

end BytecodeKernel
