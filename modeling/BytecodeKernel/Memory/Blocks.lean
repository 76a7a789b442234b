import BytecodeKernel.Memory.Error
/-!
Block tables: a range of addresses cut into free and live segments that lie end to end. Because the
segments tile the range, nothing can be lost or counted twice; that no two free ones are neighbours
is kept by `join`, which every operation uses where free segments could meet.
-/

namespace BytecodeKernel

/-- A run of addresses, all free or all in one live block. -/
inductive Segment where
  | free (size : Nat)
  | live (size : Nat)
deriving DecidableEq

namespace Segment

def size : Segment → Nat
  | free n | live n => n

/-- Puts a segment in front of others. Two free neighbours become one. -/
def join : Segment → List Segment → List Segment
  | free m, free n :: rest => free (m + n) :: rest
  | s, rest => s :: rest

/-- Makes the first free segment that is large enough live, and leaves the remainder free behind it.
Returns the distance to that segment from the start. -/
def carve? (size : Nat) : List Segment → Option (Nat × List Segment)
  | [] => none
  | free n :: rest =>
    if size ≤ n then some (0, live size :: if n = size then rest else free (n - size) :: rest)
    else (carve? size rest).map fun (offset, rest) => (n + offset, free n :: rest)
  | live n :: rest => (carve? size rest).map fun (offset, rest) => (n + offset, live n :: rest)

/-- Frees the live segment that starts at the given distance and joins it with free neighbours. -/
def vacate? (offset : Nat) : List Segment → Option (List Segment)
  | [] => none
  | s :: rest =>
    if offset = 0 then
      match s with
      | live n => some (join (free n) rest)
      | free _ => none
    else if offset < s.size then none
    else (vacate? (offset - s.size) rest).map (join s)

/-- The size of the live segment that starts at the given distance. -/
def liveSize? (offset : Nat) : List Segment → Option Nat
  | [] => none
  | s :: rest =>
    if offset = 0 then
      match s with
      | live n => some n
      | free _ => none
    else if offset < s.size then none
    else liveSize? (offset - s.size) rest

/-- The free segments as ranges, each with its start and its exclusive end. -/
def freeRanges (start : Nat) : List Segment → List (Nat × Nat)
  | [] => []
  | free n :: rest => (start, start + n) :: freeRanges (start + n) rest
  | live n :: rest => freeRanges (start + n) rest

/-- The live segments, each with its start and its size. -/
def liveBlocks (start : Nat) : List Segment → List (Nat × Nat)
  | [] => []
  | free n :: rest => liveBlocks (start + n) rest
  | live n :: rest => (start, n) :: liveBlocks (start + n) rest

def freeSize : Segment → Nat
  | free n => n
  | live _ => 0

def liveSize : Segment → Nat
  | free _ => 0
  | live n => n

/-- What a measure of segments comes to in a list of them. -/
def total (f : Segment → Nat) : List Segment → Nat
  | [] => 0
  | s :: rest => f s + total f rest

/-- The number of addresses that a list of segments covers. -/
def extent (segments : List Segment) : Nat :=
  total size segments

@[simp] theorem extent_nil : extent [] = 0 := rfl

@[simp] theorem extent_cons (s : Segment) (rest : List Segment) :
    extent (s :: rest) = s.size + extent rest := rfl

@[simp] theorem extent_join (s : Segment) (rest : List Segment) :
    extent (join s rest) = s.size + extent rest := by
  fun_cases join s rest with
  | case1 m n rest => simp [size, Nat.add_assoc]
  | case2 s rest => rfl

/-- Allocation moves no border of the tiled range. -/
theorem extent_of_carve? {n offset : Nat} {segments after : List Segment}
    (h : carve? n segments = some (offset, after)) : extent after = extent segments := by
  induction segments generalizing offset after with
  | nil => simp [carve?] at h
  | cons s rest ih =>
    cases s with
    | live m =>
      simp only [carve?, Option.map_eq_some_iff, Prod.mk.injEq] at h
      obtain ⟨⟨o, tail⟩, htail, _, rfl⟩ := h
      simp [ih htail]
    | free m =>
      simp only [carve?] at h
      split at h
      · obtain ⟨_, rfl⟩ : 0 = offset ∧ _ = after := by simpa using h
        split <;> simp [size] <;> omega
      · simp only [Option.map_eq_some_iff, Prod.mk.injEq] at h
        obtain ⟨⟨o, tail⟩, htail, _, rfl⟩ := h
        simp [ih htail]

/-- Release moves no border of the tiled range. -/
theorem extent_of_vacate? {offset : Nat} {segments after : List Segment}
    (h : vacate? offset segments = some after) : extent after = extent segments := by
  induction segments generalizing offset after with
  | nil => simp [vacate?] at h
  | cons s rest ih =>
    simp only [vacate?] at h
    split at h
    · cases s with
      | live n =>
        obtain rfl : join (free n) rest = after := by simpa using h
        simp [size]
      | free n => simp at h
    · split at h
      · contradiction
      · simp only [Option.map_eq_some_iff] at h
        obtain ⟨tail, htail, rfl⟩ := h
        simp [ih htail]

end Segment

/-- The table of an address range that begins at `origin`. -/
structure Blocks where
  origin : Nat
  segments : List Segment
deriving DecidableEq

namespace Blocks

/-- One free block of the given size, or nothing at all. -/
def ofSize (origin size : Nat) : Blocks :=
  ⟨origin, if size = 0 then [] else [.free size]⟩

/-- Free ranges, ascending, each with its exclusive end. -/
def freeRanges (b : Blocks) : List (Nat × Nat) :=
  Segment.freeRanges b.origin b.segments

/-- Live blocks, ascending, each with its size. -/
def liveBlocks (b : Blocks) : List (Nat × Nat) :=
  Segment.liveBlocks b.origin b.segments

def freeBytes (b : Blocks) : Nat :=
  Segment.total Segment.freeSize b.segments

def liveBytes (b : Blocks) : Nat :=
  Segment.total Segment.liveSize b.segments

/-- The size of the largest free block, zero if there is none. -/
def largestFree (b : Blocks) : Nat :=
  (b.segments.map Segment.freeSize).foldl max 0

/-- First fit, lowest address first. -/
def allocate (b : Blocks) (size : Nat) : Except MemoryError (Nat × Blocks) :=
  if size = 0 then .error .zeroSize
  else match Segment.carve? size b.segments with
    | some (offset, segments) => .ok (b.origin + offset, { b with segments })
    | none => .error (.outOfMemory size b.largestFree)

/-- The size of the live block that starts at an address. -/
def sizeOf? (b : Blocks) (addr : Nat) : Option Nat :=
  if addr < b.origin then none else Segment.liveSize? (addr - b.origin) b.segments

/-- Frees the live block that starts at an address. -/
def release (b : Blocks) (addr : Nat) : Except MemoryError Blocks :=
  if addr < b.origin then .error (.invalidPointer addr)
  else match Segment.vacate? (addr - b.origin) b.segments with
    | some segments => .ok { b with segments }
    | none => .error (.invalidPointer addr)

/-- Adds free space behind the last segment. -/
def extend (b : Blocks) (size : Nat) : Blocks :=
  if size = 0 then b else { b with segments := b.segments.foldr Segment.join [.free size] }

/-- The number of addresses in the range. -/
def extent (b : Blocks) : Nat :=
  Segment.extent b.segments

@[simp] theorem extent_ofSize (origin size : Nat) : (ofSize origin size).extent = size := by
  simp only [ofSize, extent]
  split <;> simp_all [Segment.size]

theorem extent_of_allocate {b after : Blocks} {size addr : Nat}
    (h : b.allocate size = .ok (addr, after)) : after.extent = b.extent := by
  simp only [allocate] at h
  split at h
  · contradiction
  · split at h
    · rename_i hcarve
      cases h
      exact Segment.extent_of_carve? hcarve
    · contradiction

theorem extent_of_release {b after : Blocks} {addr : Nat} (h : b.release addr = .ok after) :
    after.extent = b.extent := by
  simp only [release] at h
  split at h
  · contradiction
  · split at h
    · rename_i hvacate
      cases h
      exact Segment.extent_of_vacate? hvacate
    · contradiction

@[simp] theorem extent_extend (b : Blocks) (size : Nat) :
    (b.extend size).extent = b.extent + size := by
  have hfold (segments : List Segment) :
      Segment.extent (segments.foldr Segment.join [.free size])
        = Segment.extent segments + size := by
    induction segments with
    | nil => simp [Segment.size]
    | cons s rest ih =>
      simp only [List.foldr_cons, Segment.extent_join, ih, Segment.extent_cons]
      omega
  simp only [extend, extent]
  split
  · simp_all
  · exact hfold b.segments

theorem freeBytes_add_liveBytes (b : Blocks) : b.freeBytes + b.liveBytes = b.extent := by
  have hsum (segments : List Segment) :
      Segment.total Segment.freeSize segments + Segment.total Segment.liveSize segments
        = Segment.extent segments := by
    induction segments with
    | nil => rfl
    | cons s rest ih =>
      cases s <;>
        simp only [Segment.total, Segment.extent_cons, Segment.freeSize, Segment.liveSize,
          Segment.size] <;> omega
  exact hsum b.segments

end Blocks

end BytecodeKernel
