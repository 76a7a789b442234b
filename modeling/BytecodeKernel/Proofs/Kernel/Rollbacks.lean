import BytecodeKernel.Kernel.Process
import BytecodeKernel.Proofs.Memory.Allocation
/-!
Objects that take several steps to make: an image, whose program is written to a block that was
allocated for it, and the context of a process, whose stack is allocated after its heap. The model
gives no state where one of the steps fails. Here they are made in place, and what was allocated
before the failure is released. That both agree says that the releases lead back to the arena from
before.
-/

namespace BytecodeKernel.Arena

/-! ### Step by step -/

namespace Edit

variable {α : Type}

def write (addr : Nat) (bytes : List UInt8) : Edit Unit := do
  check addr bytes.length
  modify fun a => { a with store := a.store.write addr bytes }

/-- Frees a block if there is one at the address. -/
def discard (addr : Nat) : Edit Unit :=
  tryCatch (free addr) fun _ => pure ()

/-- Goes on with a block, which is released where that fails. -/
def holding (addr : Nat) (x : Edit α) : Edit α :=
  tryCatch x fun e => do
    discard addr
    throw e

def loadImage (bytes : List UInt8) : Edit Image := do
  if addressLimit ≤ bytes.length then throw (.outOfMemory (addressLimit - 1) 0)
  let base ← allocate bytes.length
  holding base (write base bytes)
  return { base, length := bytes.length, entry := 0 }

def createHeap (size : Nat) : Edit Heap := do
  let base ← allocate size
  return { base, size, blocks := .ofSize 1 size }

def createStack (size : Nat) : Edit Stack := do
  let size := max size (growHeadroom + slotSize)
  let base ← allocate size
  return { base, size, initialSize := size }

def createContext (heapBytes stackBytes : Nat) : Edit Context := do
  let heap ← createHeap heapBytes
  let stack ← holding heap.base (createStack stackBytes)
  return { heap, stack }

end Edit

/-! ### All or nothing -/

variable {α β : Type} {a b fresh : Arena} {addr size : Nat}

/-- One step after the other. What the second one finds may have been changed by the first, but an
end that has changed nothing is the arena before both. -/
theorem edit_bind {x : Edit α} {f : α → Edit β} {y : Except MemoryError (α × Arena)}
    {g : α × Arena → Except MemoryError (β × Arena)} (hx : x b = a.allOrNothing y)
    (hf : ∀ v after, y = .ok (v, after) → f v after = a.allOrNothing (g (v, after))) :
    (x >>= f) b = a.allOrNothing (y >>= g) := by
  simp only [Bind.bind, EStateM.bind, hx]
  cases y with
  | error e => rfl
  | ok result => exact hf result.1 result.2 rfl

theorem edit_write (a : Arena) (addr : Nat) (bytes : List UInt8) :
    Edit.write addr bytes a =
      a.allOrNothing (a.write addr bytes >>= fun after => pure ((), after)) := by
  simp only [Edit.write, Edit.check, Arena.write, Bind.bind, EStateM.bind, run_get]
  by_cases hrange : a.InRange addr bytes.length
  · simp only [hrange, not_true_eq_false, if_false, if_true]
    rfl
  · simp only [hrange, not_false_eq_true, if_false, if_true]
    rfl

theorem edit_createHeap (a : Arena) (size : Nat) :
    Edit.createHeap size a = a.allOrNothing (Heap.create size a) :=
  edit_bind (edit_allocate a size) fun _ _ _ => rfl

theorem edit_createStack (a : Arena) (size : Nat) :
    Edit.createStack size a = a.allOrNothing (Stack.create size a) :=
  edit_bind (edit_allocate a _) fun _ _ _ => rfl

/-- A block that was just allocated is released without a trace. -/
theorem Sound.edit_discard (h : a.Sound) (hallocate : a.allocate size = .ok (addr, fresh)) :
    Edit.discard addr fresh = .ok () a := by
  obtain ⟨blocks, hblocks, rfl⟩ := allocate_eq_ok hallocate
  have hrelease := Blocks.release_of_allocate h.tidy hblocks
  simp only [Edit.discard, tryCatch, tryCatchThe, MonadExceptOf.tryCatch, EStateM.tryCatch,
    edit_free, Arena.free, hrelease]
  rfl

/-- What changes nothing where it fails changes nothing together with the allocation before it. -/
theorem Sound.edit_holding (h : a.Sound) (hallocate : a.allocate size = .ok (addr, fresh))
    {x : Edit α} {y : Except MemoryError (α × Arena)} (hx : x fresh = fresh.allOrNothing y) :
    Edit.holding addr x fresh = a.allOrNothing y := by
  simp only [Edit.holding, tryCatch, tryCatchThe, MonadExceptOf.tryCatch, EStateM.tryCatch, hx]
  cases y with
  | ok result => rfl
  | error e =>
    have hdiscard : Edit.discard addr
        (EStateM.Backtrackable.restore fresh (EStateM.Backtrackable.save fresh)) = .ok () a :=
      h.edit_discard hallocate
    simp only [allOrNothing, Bind.bind, EStateM.bind, hdiscard]
    rfl

theorem Sound.edit_loadImage (h : a.Sound) (bytes : List UInt8) :
    Edit.loadImage bytes a = a.allOrNothing (Image.load bytes a) := by
  by_cases hlong : addressLimit ≤ bytes.length
  · simp only [Edit.loadImage, Image.load, if_pos hlong]
    rfl
  · simp only [Edit.loadImage, Image.load, if_neg hlong]
    refine edit_bind (edit_allocate a _) fun base fresh hallocate => ?_
    have hwrite := h.edit_holding hallocate (edit_write fresh base bytes)
    simp only [Bind.bind, EStateM.bind, hwrite]
    cases fresh.write base bytes <;> rfl

theorem Sound.edit_createContext (h : a.Sound) (heapBytes stackBytes : Nat) :
    Edit.createContext heapBytes stackBytes a =
      a.allOrNothing (Context.create heapBytes stackBytes a) := by
  refine edit_bind (edit_createHeap a heapBytes) fun heap fresh hheap => ?_
  obtain ⟨⟨base, after⟩, hallocate, hpair⟩ := ok_of_bind hheap
  cases hpair
  exact edit_bind (h.edit_holding hallocate (edit_createStack fresh stackBytes)) fun _ _ _ => rfl

end BytecodeKernel.Arena
