import BytecodeKernel.Kernel.Settings
import BytecodeKernel.Machine.Stack
import BytecodeKernel.Memory.Heap
import BytecodeKernel.Memory.Image
import BytecodeKernel.Schedule.Rank
/-!
Processes. A process owns a heap and a stack, and a program once one is bound to it. It gives them
back when it is halted; what is left of it then is its record, which can still be asked and hung.
-/

namespace BytecodeKernel

/-- What a process computes with. -/
structure Context where
  heap : Heap
  stack : Stack
  /-- Where the program goes on, once it has begun. -/
  cursor : Option Nat := none

/-- Takes the regions of a new process, both or none. -/
def Context.create (heapBytes stackBytes : Nat) (a : Arena) :
    Except MemoryError (Context × Arena) := do
  let (heap, a) ← Heap.create heapBytes a
  let (stack, a) ← Stack.create stackBytes a
  return ({ heap, stack }, a)

/-- Gives both regions back. -/
def Context.release (c : Context) (a : Arena) : Arena :=
  c.stack.release (c.heap.release a)

/-- Cycle counters start again at zero here. -/
def cycleLimit : Nat := 0x10000000000000000

structure Process where
  id : Nat
  priority : Nat := defaultPriority
  /-- The age of the process in scheduling rounds. -/
  cycle : Nat := 0
  name : List UInt8 := []
  /-- The processes it created, oldest first. -/
  children : List Nat := []
  image : Option Image := none
  context : Option Context
  /-- Whether the process may run. A process that may not is hung. -/
  active : Bool := true
  halted : Bool := false

namespace Process

def isBound (p : Process) : Bool :=
  p.image.isSome

/-- Whether there is nothing to run: no program, or hung. -/
def isIdle (p : Process) : Bool :=
  ! p.active || ! p.isBound

def rank (p : Process) : Rank :=
  ⟨p.id, p.priority, p.cycle⟩

/-- The process some rounds older. -/
def age (p : Process) (rounds : Nat) : Process :=
  { p with cycle := (p.cycle + rounds) % cycleLimit }

def tick (p : Process) : Process :=
  p.age 1

def hang (p : Process) : Process :=
  { p with active := false }

/-- Lets a hung process run again. Halted processes stay halted. -/
def wake (p : Process) : Process :=
  if p.halted then p else { p with active := true }

def addChild (p : Process) (child : Nat) : Process :=
  if child ∈ p.children then p else { p with children := p.children ++ [child] }

/-- The process without what it held. -/
def halt (p : Process) : Process :=
  { p with active := false, halted := true, image := none, context := none }

end Process

end BytecodeKernel
