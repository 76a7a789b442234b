import BytecodeKernel.Proofs.Machine.Simulation
import Mathlib.Algebra.Ring.Nat
/-!
Heaps of programs. No instruction gives a heap block back, so the texts of a program stand end to
end from heap address one on, and the free space is behind them. Where a text comes to stand depends
on the texts before it alone: not on how large the heap was at first, nor on how it grew.
-/

namespace BytecodeKernel

/-- Texts that are laid end to end. -/
structure Pile where
  /-- Where the next text goes. -/
  next : Nat
  /-- The text at an address, or why there is none. -/
  texts : Nat → Except MemoryError (List UInt8)

namespace Pile

def empty : Pile where
  next := 1
  texts addr := .error (.invalidPointer addr)

def shelf : Shelf Pile where
  store bytes x := .ok (x.next,
    ⟨x.next + bytes.length, fun k => if k = x.next then .ok bytes else x.texts k⟩)
  fetch x addr := x.texts addr

end Pile

/-! ### Tables without gaps -/

namespace Segment

/-- Live segments of these sizes, and free space behind them. -/
def stacked (sizes : List Nat) (room : Nat) : List Segment :=
  sizes.map .live ++ (Blocks.ofSize 1 room).segments

theorem carve?_stacked {size room : Nat} (hsize : size ≠ 0) (hroom : size ≤ room)
    (sizes : List Nat) :
    carve? size (stacked sizes room) =
      some (sizes.sum, stacked (sizes ++ [size]) (room - size)) := by
  induction sizes with
  | nil =>
    simp only [stacked, Blocks.ofSize, List.map_nil, List.nil_append,
      if_neg (show room ≠ 0 by omega), carve?, if_pos hroom, List.sum_nil, List.map_singleton,
      List.singleton_append]
    by_cases heq : room = size
    · rw [if_pos heq, if_pos (by omega)]
    · rw [if_neg heq, if_neg (by omega)]
  | cons n rest ih =>
    have hcons (sizes : List Nat) (room : Nat) :
        stacked (n :: sizes) room = live n :: stacked sizes room := rfl
    rw [hcons, carve?, ih]
    simp [hcons]

theorem extend_stacked (sizes : List Nat) (room size : Nat) :
    (Blocks.extend ⟨1, stacked sizes room⟩ size).segments = stacked sizes (room + size) := by
  rw [Blocks.extend]
  by_cases hsize : size = 0
  · rw [if_pos hsize, hsize, Nat.add_zero]
  · rw [if_neg hsize]
    induction sizes with
    | nil =>
      by_cases hroom : room = 0
      · simp [stacked, Blocks.ofSize, hroom, hsize]
      · simp [stacked, Blocks.ofSize, hroom, join]
    | cons n rest ih => exact congrArg (join (live n)) ih

theorem largestFree_stacked (sizes : List Nat) (room : Nat) :
    (Blocks.mk 1 (stacked sizes room)).largestFree = room := by
  rw [Blocks.largestFree, stacked, List.map_append, List.foldl_append]
  have hlive : ((sizes.map live).map freeSize).foldl max 0 = 0 := by
    induction sizes with
    | nil => rfl
    | cons n rest ih => exact ih
  rw [hlive, Blocks.ofSize]
  by_cases hroom : room = 0
  · simp [hroom]
  · simp [hroom, freeSize]

end Segment

/-- The table has the texts of the pile and nothing between them. -/
def Pile.Shows (b : Blocks) (x : Pile) : Prop :=
  ∃ sizes room, b = ⟨1, Segment.stacked sizes room⟩ ∧ x.next = 1 + sizes.sum

namespace Pile

/-- A block is always taken behind the others. -/
theorem obtain_stacked {sizes : List Nat} {room size addr : Nat} {after : Blocks} (hsize : size ≠ 0)
    (h : Blocks.obtain ⟨1, Segment.stacked sizes room⟩ size = .ok (addr, after)) :
    addr = 1 + sizes.sum ∧ ∃ left, after = ⟨1, Segment.stacked (sizes ++ [size]) left⟩ := by
  have htable : ∃ space, size ≤ space ∧
      (if size ≤ (Blocks.mk 1 (Segment.stacked sizes room)).largestFree
        then (Blocks.mk 1 (Segment.stacked sizes room))
        else (Blocks.mk 1 (Segment.stacked sizes room)).extend size) =
        ⟨1, Segment.stacked sizes space⟩ := by
    rw [Segment.largestFree_stacked]
    by_cases hfits : size ≤ room
    · exact ⟨room, hfits, if_pos hfits⟩
    · refine ⟨room + size, Nat.le_add_left _ _, ?_⟩
      rw [if_neg hfits, ← Segment.extend_stacked, Blocks.extend, if_neg hsize]
  obtain ⟨space, hspace, htable⟩ := htable
  rw [Blocks.obtain, htable, Blocks.allocate, if_neg hsize,
    Segment.carve?_stacked hsize hspace] at h
  obtain ⟨rfl, rfl⟩ := Prod.mk.inj (Except.ok.inj h)
  exact ⟨rfl, _, rfl⟩

theorem renders_shelf : shelf.Renders Shows := by
  rintro _ after x bytes addr hbytes ⟨sizes, room, rfl, hnext⟩ hobtain
  obtain ⟨rfl, left, rfl⟩ := obtain_stacked (by simpa using hbytes) hobtain
  rw [← hnext]
  refine ⟨_, rfl, ⟨sizes ++ [bytes.length], left, rfl, ?_⟩, fun _ => rfl⟩
  rw [List.sum_append, List.sum_singleton, ← Nat.add_assoc, ← hnext]

/-- A heap that was not used yet. -/
theorem shows_ofSize (size : Nat) : Shows (.ofSize 1 size) empty :=
  ⟨[], size, rfl, rfl⟩

end Pile

/-- Nothing is read from a heap that was not used yet. -/
theorem Heap.readBlock_of_ofSize {h : Heap} (hblocks : h.blocks = .ofSize 1 h.size) (a : Arena)
    (addr : Nat) : h.readBlock a addr = .error (.invalidPointer addr) := by
  have hnone : h.blocks.sizeOf? addr = none := by
    refine Option.eq_none_iff_forall_ne_some.2 fun size hsize => ?_
    rw [hblocks, Blocks.sizeOf?_eq_some_iff (Blocks.tidy_ofSize _ _),
      Blocks.liveBlocks_ofSize] at hsize
    contradiction
  rw [readBlock, sizeOf, hnone]
  rfl

end BytecodeKernel
