import BytecodeKernel.Machine.Stack
import BytecodeKernel.Memory.Heap
import BytecodeKernel.Memory.Image
import Std.Data.TreeMap
/-!
Workspaces: an arena with the heaps, stacks and images that live in it, each under a number. An
object put where another stood takes its place once it exists, and the old one gives its regions
back. An image gives its block back when no other image shares it.
-/

namespace BytecodeKernel

/-- An image together with the loading it goes back to, which tells blocks apart. -/
structure LoadedImage where
  image : Image
  loading : Nat

/-- The objects, each under its number, without the arena they live in. -/
structure Holdings where
  heapTable : Std.TreeMap Nat Heap := {}
  stackTable : Std.TreeMap Nat Stack := {}
  imageTable : Std.TreeMap Nat LoadedImage := {}
  /-- The number of loadings so far. -/
  loadings : Nat := 0

structure Workspace extends Holdings where
  arena : Arena

namespace Workspace

def dropHeap (w : Workspace) (id : Nat) : Workspace :=
  match w.heapTable[id]? with
  | some h => { w with arena := h.release w.arena, heapTable := w.heapTable.erase id }
  | none => w

def dropStack (w : Workspace) (id : Nat) : Workspace :=
  match w.stackTable[id]? with
  | some s => { w with arena := s.release w.arena, stackTable := w.stackTable.erase id }
  | none => w

def dropImage (w : Workspace) (id : Nat) : Workspace :=
  match w.imageTable[id]? with
  | some i =>
    let imageTable := w.imageTable.erase id
    let isShared := imageTable.toList.any fun (_, other) => other.loading == i.loading
    { w with
      arena := if isShared then w.arena else w.arena.discard i.image.base
      imageTable }
  | none => w

def newHeap (w : Workspace) (id size : Nat) : Except MemoryError Workspace := do
  let (h, arena) ← Heap.create size w.arena
  let w := dropHeap { w with arena } id
  return { w with heapTable := w.heapTable.insert id h }

def newStack (w : Workspace) (id size : Nat) : Except MemoryError Workspace := do
  let (s, arena) ← Stack.create size w.arena
  let w := dropStack { w with arena } id
  return { w with stackTable := w.stackTable.insert id s }

def loadImage (w : Workspace) (id : Nat) (bytes : List UInt8) : Except MemoryError Workspace := do
  let (image, arena) ← Image.load bytes w.arena
  let w := dropImage { w with arena } id
  return { w with
    imageTable := w.imageTable.insert id ⟨image, w.loadings⟩
    loadings := w.loadings + 1 }

/-- Puts under `id` the image under `source` with another entry. -/
def enterImage (w : Workspace) (id source entry : Nat) : Workspace :=
  match w.imageTable[source]? with
  | some i =>
    let entered := { i with image := i.image.enteredAt entry }
    if id = source then { w with imageTable := w.imageTable.insert id entered }
    else
      let w := dropImage w id
      { w with imageTable := w.imageTable.insert id entered }
  | none => w

/-- Lets a heap act, if there is one under the number. -/
def onHeap {α : Type} (w : Workspace) (id : Nat) (x : HeapM α) :
    Option (Except MemoryError α × Workspace) := do
  let h ← w.heapTable[id]?
  match x (h, w.arena) with
  | .ok v (h, arena) =>
    return (.ok v, { w with arena, heapTable := w.heapTable.insert id h })
  | .error e (h, arena) =>
    return (.error e, { w with arena, heapTable := w.heapTable.insert id h })

/-- Lets a stack act, if there is one under the number. -/
def onStack {α : Type} (w : Workspace) (id : Nat) (x : StackM α) :
    Option (Except Fault α × Workspace) := do
  let s ← w.stackTable[id]?
  match x (s, w.arena) with
  | .ok v (s, arena) =>
    return (.ok v, { w with arena, stackTable := w.stackTable.insert id s })
  | .error e (s, arena) =>
    return (.error e, { w with arena, stackTable := w.stackTable.insert id s })

end Workspace

end BytecodeKernel
