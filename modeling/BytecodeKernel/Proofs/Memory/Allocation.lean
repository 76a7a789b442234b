import BytecodeKernel.Proofs.Memory.Gaps
import BytecodeKernel.Proofs.Memory.Partition
import BytecodeKernel.Proofs.Memory.Room
/-!
What the block operations of an arena do, from any state that it can reach: when each succeeds,
where a block goes, which bytes change, and what a failure is. The conditions are on the live blocks
and the free ranges alone.

An operation of an arena gives no state where it fails. `Edit` has the same operations step by step,
as one that changes the state in place makes them, and keeps what was done before a failure. That
both agree says that nothing fails after something has changed.
-/

namespace BytecodeKernel

namespace Segment

theorem exists_mem_freeRanges {k : Nat} {segments : List Segment} (h : free k ∈ segments)
    (start : Nat) : ∃ addr, (addr, addr + k) ∈ freeRanges start segments := by
  obtain ⟨front, back, rfl⟩ := List.append_of_mem h
  refine ⟨start + extent front, ?_⟩
  rw [freeRanges_append]
  exact List.mem_append_right _ List.mem_cons_self

end Segment

namespace Blocks

/-- The lowest start of a free range that is large enough. -/
structure FirstFit (b : Blocks) (size addr : Nat) : Prop where
  fits : ∃ stop, (addr, stop) ∈ b.freeRanges ∧ addr + size ≤ stop
  lowest : ∀ r ∈ b.freeRanges, r.1 + size ≤ r.2 → addr ≤ r.1

/-- The length of the largest free range, zero if there is none. -/
structure IsLargest (b : Blocks) (n : Nat) : Prop where
  le : ∀ r ∈ b.freeRanges, r.2 - r.1 ≤ n
  attained : (∃ r ∈ b.freeRanges, r.2 = r.1 + n) ∨ b.freeRanges = [] ∧ n = 0

variable {b after : Blocks} {size addr : Nat}

theorem isLargest_largestFree (b : Blocks) : b.IsLargest b.largestFree where
  le r hr := by
    obtain ⟨k, hk, hstop⟩ := Segment.exists_of_mem_freeRanges hr
    have hle := le_largestFree hk
    omega
  attained := by
    by_cases hzero : b.largestFree = 0
    · cases hranges : b.freeRanges with
      | nil => exact .inr ⟨rfl, hzero⟩
      | cons r rest =>
        have hr : r ∈ b.freeRanges := hranges ▸ List.mem_cons_self
        obtain ⟨k, hk, hstop⟩ := Segment.exists_of_mem_freeRanges hr
        have hle := le_largestFree hk
        exact .inl ⟨r, List.mem_cons_self, by omega⟩
    · obtain ⟨k, hk, hle⟩ : ∃ k, Segment.free k ∈ b.segments ∧ b.largestFree ≤ k :=
        Segment.exists_free_of_le_max hzero (Nat.le_refl _)
      obtain rfl : k = b.largestFree := Nat.le_antisymm (le_largestFree hk) hle
      obtain ⟨start, hrange⟩ := Segment.exists_mem_freeRanges hk b.origin
      exact .inl ⟨_, hrange, rfl⟩

/-- Some free segment is large enough when some free range is. -/
theorem exists_free_iff :
    (∃ k, Segment.free k ∈ b.segments ∧ size ≤ k) ↔ ∃ r ∈ b.freeRanges, r.1 + size ≤ r.2 := by
  constructor
  · rintro ⟨k, hk, hle⟩
    obtain ⟨start, hrange⟩ := Segment.exists_mem_freeRanges hk b.origin
    exact ⟨_, hrange, Nat.add_le_add_left hle start⟩
  · rintro ⟨r, hr, hle⟩
    obtain ⟨k, hk, hstop⟩ := Segment.exists_of_mem_freeRanges hr
    exact ⟨k, hk, by omega⟩

theorem exists_allocate_iff :
    (∃ addr after, b.allocate size = .ok (addr, after)) ↔
      0 < size ∧ ∃ r ∈ b.freeRanges, r.1 + size ≤ r.2 := by
  rw [← exists_free_iff]
  constructor
  · rintro ⟨addr, after, hallocate⟩
    obtain ⟨hsize, offset, hcarve, -, -⟩ := allocate_eq_ok hallocate
    obtain ⟨front, k, back, hsplit, -, hle, -, -⟩ := Segment.carve?_eq_some hcarve
    exact ⟨hsize, k, by simp [hsplit], hle⟩
  · rintro ⟨hsize, hfree⟩
    exact exists_allocate hsize.ne' hfree

/-- The block is put at the lowest start, for the ranges before it were too small. -/
theorem firstFit_of_allocate (h : b.allocate size = .ok (addr, after)) : b.FirstFit size addr := by
  obtain ⟨-, offset, hcarve, rfl, -⟩ := allocate_eq_ok h
  obtain ⟨front, k, back, hsplit, hsmall, hle, rfl, -⟩ := Segment.carve?_eq_some hcarve
  let x := b.origin + Segment.extent front
  have hranges : b.freeRanges = Segment.freeRanges b.origin front ++
      (x, x + k) :: Segment.freeRanges (x + k) back := by
    rw [freeRanges, hsplit, Segment.freeRanges_append]
    rfl
  refine ⟨⟨x + k, ?_, Nat.add_le_add_left hle x⟩, fun r hr hfit => ?_⟩
  · rw [hranges]
    exact List.mem_append_right _ List.mem_cons_self
  · rw [hranges] at hr
    rcases List.mem_append.1 hr with hfront | hbehind
    · obtain ⟨j, hj, hstop⟩ := Segment.exists_of_mem_freeRanges hfront
      have hlt := hsmall j hj
      omega
    · rcases List.mem_cons.1 hbehind with rfl | hback
      · exact Nat.le_refl _
      · exact (Nat.le_add_right _ _).trans (Segment.le_start_of_mem_freeRanges hback)

theorem error_of_allocate {e : MemoryError} (h : b.allocate size = .error e) :
    size = 0 ∧ e = .zeroSize ∨ 0 < size ∧ ∃ n, b.IsLargest n ∧ e = .outOfMemory size n := by
  rw [allocate] at h
  split at h
  · exact .inl ⟨‹_›, (Except.error.inj h).symm⟩
  · split at h
    · contradiction
    · exact .inr ⟨by omega, _, b.isLargest_largestFree, (Except.error.inj h).symm⟩

end Blocks

namespace Arena

/-! ### Operations in place -/

/-- An operation that changes an arena in place. What was done before a failure stays done. -/
abbrev Edit := EStateM MemoryError Arena

namespace Edit

def allocate (size : Nat) : Edit Nat := do
  match (← get).blocks.allocate size with
  | .ok (addr, blocks) =>
    modify fun a => { a with blocks }
    return addr
  | .error e => throw e

/-- Refuses a range that leaves the arena. -/
def check (addr length : Nat) : Edit Unit := do
  if ¬ (← get).InRange addr length then throw (.outOfBounds addr length)

def calloc (size length : Nat) : Edit Nat := do
  if size < length then throw (.invalidLength size length)
  let addr ← allocate size
  check addr length
  modify fun a => { a with store := a.store.write addr (List.replicate length 0) }
  return addr

def copy (dst src length : Nat) : Edit Unit := do
  check src length
  check dst length
  modify fun a => { a with store := a.store.write dst (a.store.read src length) }

def tryReallocate (addr size : Nat) : Edit Nat := do
  match (← get).blocks.sizeOf? addr with
  | none => throw (.invalidPointer addr)
  | some old =>
    let moved ← allocate size
    copy moved addr (min old size)
    return moved

/-- The old address, with whatever was done, where the block cannot be moved. -/
def reallocate (addr size : Nat) : Edit Nat :=
  tryCatch (tryReallocate addr size) fun _ => return addr

def free (addr : Nat) : Edit Unit := do
  match (← get).blocks.release addr with
  | .ok blocks => modify fun a => { a with blocks }
  | .error e => throw e

def reserve (size : Nat) : Edit Bool := do
  let a ← get
  if size ≤ a.blocks.largestFree then return false
  if a.limit < a.capacity + size then throw (.growthLimit (a.capacity + size) a.limit)
  modify fun a => { a with capacity := a.capacity + size }
  modify fun a => { a with blocks := a.blocks.extend size }
  return true

end Edit

/-- The end of an operation that has changed nothing where it fails. -/
def allOrNothing {α : Type} (a : Arena) :
    Except MemoryError (α × Arena) → EStateM.Result MemoryError Arena α
  | .ok (v, after) => .ok v after
  | .error e => .error e a

variable {a after : Arena} {size length addr : Nat}

theorem edit_allocate (a : Arena) (size : Nat) :
    Edit.allocate size a = a.allOrNothing (a.allocate size) := by
  simp only [Edit.allocate, Arena.allocate, Bind.bind, EStateM.bind, run_get]
  cases a.blocks.allocate size with
  | error e => rfl
  | ok result => rfl

theorem edit_check (h : a.InRange addr length) : Edit.check addr length a = .ok () a := by
  simp only [Edit.check, Bind.bind, EStateM.bind, run_get, not_true_eq_false, h, if_false]
  rfl

/-- Clearing the fresh block is not refused, so nothing fails once the table has changed. -/
theorem Sound.edit_calloc (h : a.Sound) (size length : Nat) :
    Edit.calloc size length a = a.allOrNothing (a.calloc size length) := by
  rcases Nat.lt_or_ge size length with hlt | hle
  · rw [calloc_of_lt a hlt, Edit.calloc, if_pos hlt]
    rfl
  · rw [h.calloc_eq hle]
    simp only [Edit.calloc, Nat.not_lt.2 hle, if_false, Bind.bind, EStateM.bind, edit_allocate]
    cases hallocate : a.allocate size with
    | error e => rfl
    | ok result =>
      have hrange := (h.inRange_of_allocate hallocate).shorter hle
      simp only [allOrNothing, Pure.pure, EStateM.pure, edit_check hrange]
      rfl

/-- The copy to the fresh block is not refused either. -/
theorem Sound.edit_tryReallocate (h : a.Sound) (addr size : Nat) :
    Edit.tryReallocate addr size a = a.allOrNothing (a.tryReallocate addr size) := by
  simp only [Edit.tryReallocate, Bind.bind, EStateM.bind, run_get]
  cases hold : a.blocks.sizeOf? addr with
  | none =>
    rw [Arena.tryReallocate, sizeOf, hold]
    rfl
  | some old =>
    have hlive := (Blocks.sizeOf?_eq_some_iff h.tidy).1 hold
    rw [h.tryReallocate_eq hlive]
    simp only [edit_allocate, EStateM.bind]
    cases hallocate : a.allocate size with
    | error e => rfl
    | ok result =>
      obtain ⟨moved, fresh⟩ := result
      have hdst := (h.inRange_of_allocate hallocate).shorter (Nat.min_le_right old size)
      have hsrc := (h.inRange_of_live hlive hallocate).shorter (Nat.min_le_left old size)
      simp only [allOrNothing, Edit.copy, Bind.bind, EStateM.bind, edit_check hsrc,
        edit_check hdst]
      rfl

theorem Sound.edit_reallocate (h : a.Sound) (addr size : Nat) :
    Edit.reallocate addr size a
      = .ok (a.reallocate addr size).1 (a.reallocate addr size).2 := by
  have hmove := h.edit_tryReallocate addr size
  simp only [Edit.reallocate, tryCatch, tryCatchThe, MonadExceptOf.tryCatch, EStateM.tryCatch,
    hmove, Arena.reallocate]
  cases a.tryReallocate addr size <;> rfl

theorem edit_free (a : Arena) (addr : Nat) :
    Edit.free addr a = a.allOrNothing ((a.free addr).map fun after => ((), after)) := by
  simp only [Edit.free, Arena.free, Bind.bind, EStateM.bind, run_get]
  cases a.blocks.release addr <;> rfl

theorem edit_reserve (a : Arena) (size : Nat) :
    Edit.reserve size a = a.allOrNothing (a.reserve size) := by
  simp only [Edit.reserve, Arena.reserve, Bind.bind, EStateM.bind, run_get]
  split
  · rfl
  · split <;> rfl

/-! ### What the operations do -/

/-- What an allocation did: the block is where first fit puts it, and it is all that is new. -/
structure Allocated (a : Arena) (size addr : Nat) (after : Arena) : Prop where
  firstFit : a.blocks.FirstFit size addr
  live : after.blocks.liveBlocks.Perm ((addr, size) :: a.blocks.liveBlocks)
  store : after.store = a.store
  capacity : after.capacity = a.capacity
  limit : after.limit = a.limit

/-- What a move did: there is a fresh block, apart from the old one, with as much of the old bytes
as it holds. The old block is still there, and no other byte has changed. -/
structure Moved (a : Arena) (addr old size moved : Nat) (after : Arena) : Prop where
  fresh : ∃ fresh, a.Allocated size moved fresh ∧ SameTables fresh after
  apart : moved + size ≤ addr ∨ addr + old ≤ moved
  copied : ∀ i < min old size, after.store.get (moved + i) = a.store.get (addr + i)
  kept : ∀ x, ¬ (moved ≤ x ∧ x < moved + min old size) → after.store.get x = a.store.get x
  old_live : (addr, old) ∈ after.blocks.liveBlocks
  old_kept : ∀ i < old, after.store.get (addr + i) = a.store.get (addr + i)

/-- What a release did: the blocks that start at the address are gone, and nothing else is. -/
structure Freed (a : Arena) (addr : Nat) (after : Arena) : Prop where
  live : after.blocks.liveBlocks = a.blocks.liveBlocks.filter (·.1 ≠ addr)
  store : after.store = a.store
  capacity : after.capacity = a.capacity
  limit : after.limit = a.limit

/-- When the block operations succeed, what they then do, and what else they answer. -/
structure BlockOperations (a : Arena) : Prop where
  allocate_ok_iff : ∀ size, (∃ addr after, a.allocate size = .ok (addr, after)) ↔
    0 < size ∧ ∃ r ∈ a.blocks.freeRanges, r.1 + size ≤ r.2
  allocated : ∀ size addr after, a.allocate size = .ok (addr, after) → a.Allocated size addr after
  allocate_error : ∀ size e, a.allocate size = .error e → size = 0 ∧ e = .zeroSize ∨
    0 < size ∧ ∃ n, a.blocks.IsLargest n ∧ e = .outOfMemory size n
  calloc_long : ∀ size length, size < length →
    a.calloc size length = .error (.invalidLength size length)
  calloc_error : ∀ size length e, length ≤ size → a.allocate size = .error e →
    a.calloc size length = .error e
  calloc_ok : ∀ size length addr fresh, length ≤ size → a.allocate size = .ok (addr, fresh) →
    ∃ after, a.calloc size length = .ok (addr, after) ∧ SameTables fresh after ∧
      ∀ x, after.store.get x = if addr ≤ x ∧ x < addr + length then 0 else a.store.get x
  move_ok_iff : ∀ addr size, (∃ moved after, a.tryReallocate addr size = .ok (moved, after)) ↔
    (∃ old, (addr, old) ∈ a.blocks.liveBlocks) ∧ ∃ moved fresh, a.allocate size = .ok (moved, fresh)
  moved : ∀ addr size moved after, a.tryReallocate addr size = .ok (moved, after) →
    ∃ old, (addr, old) ∈ a.blocks.liveBlocks ∧ a.Moved addr old size moved after
  move_error : ∀ addr size e, a.tryReallocate addr size = .error e →
    (∀ old, (addr, old) ∉ a.blocks.liveBlocks) ∧ e = .invalidPointer addr ∨
      (∃ old, (addr, old) ∈ a.blocks.liveBlocks) ∧ a.allocate size = .error e
  reallocate_moved : ∀ addr size moved after, a.tryReallocate addr size = .ok (moved, after) →
    a.reallocate addr size = (moved, after)
  reallocate_kept : ∀ addr size e, a.tryReallocate addr size = .error e →
    a.reallocate addr size = (addr, a)
  reallocate_fst_iff : ∀ addr size, (a.reallocate addr size).1 = addr ↔
    ∃ e, a.tryReallocate addr size = .error e
  free_ok_iff : ∀ addr, (∃ after, a.free addr = .ok after) ↔
    ∃ size, (addr, size) ∈ a.blocks.liveBlocks
  freed : ∀ addr after, a.free addr = .ok after → a.Freed addr after
  free_error : ∀ addr e, a.free addr = .error e → e = .invalidPointer addr
  /-- Done in place, they come to the same, and a failure has changed nothing. -/
  allocate_whole : ∀ size, Edit.allocate size a = a.allOrNothing (a.allocate size)
  calloc_whole : ∀ size length,
    Edit.calloc size length a = a.allOrNothing (a.calloc size length)
  move_whole : ∀ addr size,
    Edit.tryReallocate addr size a = a.allOrNothing (a.tryReallocate addr size)
  reallocate_whole : ∀ addr size, Edit.reallocate addr size a
    = .ok (a.reallocate addr size).1 (a.reallocate addr size).2
  free_whole : ∀ addr,
    Edit.free addr a = a.allOrNothing ((a.free addr).map fun after => ((), after))
  /-- Computed in 32 bits, they come to the same too. -/
  narrow : ∀ call, (Ledger.ofArena a).perform? call = some (Ledger.ofArena (a.perform call))

theorem exists_allocate_iff : (∃ addr after, a.allocate size = .ok (addr, after)) ↔
    0 < size ∧ ∃ r ∈ a.blocks.freeRanges, r.1 + size ≤ r.2 := by
  rw [← Blocks.exists_allocate_iff]
  constructor
  · rintro ⟨addr, after, hallocate⟩
    obtain ⟨blocks, hblocks, -⟩ := allocate_eq_ok hallocate
    exact ⟨addr, blocks, hblocks⟩
  · rintro ⟨addr, blocks, hblocks⟩
    exact ⟨addr, { a with blocks }, by rw [Arena.allocate, hblocks]; rfl⟩

theorem allocated_of_allocate (h : a.allocate size = .ok (addr, after)) :
    a.Allocated size addr after := by
  obtain ⟨blocks, hblocks, rfl⟩ := allocate_eq_ok h
  obtain ⟨front, back, hbefore, hafter⟩ := Blocks.liveBlocks_of_allocate hblocks
  refine ⟨Blocks.firstFit_of_allocate hblocks, ?_, rfl, rfl, rfl⟩
  rw [hafter, hbefore]
  exact List.perm_middle

theorem error_of_allocate {e : MemoryError} (h : a.allocate size = .error e) :
    size = 0 ∧ e = .zeroSize ∨
      0 < size ∧ ∃ n, a.blocks.IsLargest n ∧ e = .outOfMemory size n := by
  apply Blocks.error_of_allocate
  rw [Arena.allocate] at h
  cases hblocks : a.blocks.allocate size with
  | error e' =>
    rw [hblocks] at h
    exact congrArg Except.error (Except.error.inj h)
  | ok result =>
    rw [hblocks] at h
    contradiction

theorem Sound.calloc_ok {fresh : Arena} (h : a.Sound) (hle : length ≤ size)
    (hallocate : a.allocate size = .ok (addr, fresh)) :
    ∃ after, a.calloc size length = .ok (addr, after) ∧ SameTables fresh after ∧
      ∀ x, after.store.get x = if addr ≤ x ∧ x < addr + length then 0 else a.store.get x := by
  rw [h.calloc_eq hle, hallocate]
  refine ⟨_, rfl, ⟨rfl, rfl, rfl⟩, fun x => ?_⟩
  rw [← (allocated_of_allocate hallocate).store]
  exact ByteStore.get_write_replicate _ _ _ _

/-- A fresh block does not meet one that was live before. -/
theorem Sound.apart_of_allocate {old : Nat} (h : a.Sound)
    (hold : (addr, old) ∈ a.blocks.liveBlocks) {moved : Nat} {fresh : Arena}
    (hallocate : a.allocate size = .ok (moved, fresh)) :
    moved + size ≤ addr ∨ addr + old ≤ moved := by
  have howns : a.Owns a.blocks.liveBlocks := ⟨h, .refl _⟩
  exact (howns.allocate hallocate).1.disjoint_head _ hold

theorem Sound.moved (h : a.Sound) {moved : Nat}
    (hmove : a.tryReallocate addr size = .ok (moved, after)) :
    ∃ old, (addr, old) ∈ a.blocks.liveBlocks ∧ a.Moved addr old size moved after := by
  obtain ⟨old, fresh, hold, hallocate, rfl⟩ := h.tryReallocate_eq_ok hmove
  have hallocated := allocated_of_allocate hallocate
  have hapart := h.apart_of_allocate hold hallocate
  have hread := fresh.store.length_read addr (min old size)
  -- The bytes after the move, in terms of those before it.
  have hget (x : Nat) : (fresh.store.write moved (fresh.store.read addr (min old size))).get x =
      if moved ≤ x ∧ x < moved + min old size then a.store.get (addr + (x - moved))
      else a.store.get x := by
    rw [ByteStore.get_write, hread, hallocated.store]
    split
    · rename_i hin
      exact ByteStore.getD_read _ (by omega)
    · rfl
  refine ⟨old, hold, ⟨fresh, hallocated, rfl, rfl, rfl⟩, hapart, fun i hi => ?_, fun x hx => ?_, ?_,
    fun i hi => ?_⟩
  · rw [hget, if_pos (by omega), Nat.add_sub_cancel_left]
  · rw [hget, if_neg hx]
  · exact hallocated.live.mem_iff.2 (List.mem_cons_of_mem _ hold)
  · rw [hget, if_neg (by omega)]

theorem Sound.exists_tryReallocate_iff (h : a.Sound) (addr size : Nat) :
    (∃ moved after, a.tryReallocate addr size = .ok (moved, after)) ↔
      (∃ old, (addr, old) ∈ a.blocks.liveBlocks) ∧
        ∃ moved fresh, a.allocate size = .ok (moved, fresh) := by
  constructor
  · rintro ⟨moved, after, hmove⟩
    obtain ⟨old, fresh, hold, hallocate, -⟩ := h.tryReallocate_eq_ok hmove
    exact ⟨⟨old, hold⟩, moved, fresh, hallocate⟩
  · rintro ⟨⟨old, hold⟩, moved, fresh, hallocate⟩
    rw [h.tryReallocate_eq hold, hallocate]
    exact ⟨moved, _, rfl⟩

theorem Sound.error_of_tryReallocate {e : MemoryError} (h : a.Sound)
    (hmove : a.tryReallocate addr size = .error e) :
    (∀ old, (addr, old) ∉ a.blocks.liveBlocks) ∧ e = .invalidPointer addr ∨
      (∃ old, (addr, old) ∈ a.blocks.liveBlocks) ∧ a.allocate size = .error e := by
  cases hold : a.blocks.sizeOf? addr with
  | none =>
    refine .inl ⟨fun old hmem => ?_, ?_⟩
    · rw [(Blocks.sizeOf?_eq_some_iff h.tidy).2 hmem] at hold
      contradiction
    · rw [Arena.tryReallocate, sizeOf, hold] at hmove
      exact (Except.error.inj hmove).symm
  | some old =>
    have hlive := (Blocks.sizeOf?_eq_some_iff h.tidy).1 hold
    refine .inr ⟨⟨old, hlive⟩, ?_⟩
    rw [h.tryReallocate_eq hlive] at hmove
    cases hallocate : a.allocate size with
    | error e' =>
      rw [hallocate] at hmove
      exact congrArg Except.error (Except.error.inj hmove)
    | ok result =>
      rw [hallocate] at hmove
      contradiction

/-- A block that was moved has a new address, for the old one is still taken. -/
theorem Sound.reallocate_fst_iff (h : a.Sound) (addr size : Nat) :
    (a.reallocate addr size).1 = addr ↔ ∃ e, a.tryReallocate addr size = .error e := by
  rw [Arena.reallocate]
  cases hmove : a.tryReallocate addr size with
  | error e => simp
  | ok result =>
    obtain ⟨moved, after⟩ := result
    obtain ⟨old, hold, hmoved⟩ := h.moved hmove
    have hsize : 0 < size := by
      obtain ⟨-, hallocates⟩ := (h.exists_tryReallocate_iff addr size).1 ⟨moved, after, hmove⟩
      exact (exists_allocate_iff.1 hallocates).1
    have hpos : 0 < old := Segment.liveBlocks_pos h.tidy hold
    have hapart := hmoved.apart
    simp only [reduceCtorEq, exists_false, iff_false]
    omega

theorem Sound.exists_free_iff (h : a.Sound) (addr : Nat) :
    (∃ after, a.free addr = .ok after) ↔ ∃ size, (addr, size) ∈ a.blocks.liveBlocks := by
  constructor
  · rintro ⟨after, hfree⟩
    obtain ⟨blocks, hblocks, -⟩ := free_eq_ok hfree
    obtain ⟨front, size, back, hbefore, -⟩ := Blocks.liveBlocks_of_release hblocks
    exact ⟨size, by simp [hbefore]⟩
  · rintro ⟨size, hmem⟩
    have howns : a.Owns a.blocks.liveBlocks := ⟨h, .refl _⟩
    exact howns.exists_free hmem

theorem Sound.freed (h : a.Sound) (hfree : a.free addr = .ok after) : a.Freed addr after := by
  obtain ⟨blocks, hblocks, rfl⟩ := free_eq_ok hfree
  exact ⟨Blocks.liveBlocks_release_eq_filter h.tidy hblocks, rfl, rfl, rfl⟩

theorem error_of_free {e : MemoryError} (h : a.free addr = .error e) :
    e = .invalidPointer addr := by
  rw [Arena.free] at h
  cases hblocks : a.blocks.release addr with
  | ok blocks =>
    rw [hblocks] at h
    contradiction
  | error e' =>
    rw [hblocks] at h
    obtain rfl : e' = e := Except.error.inj h
    exact a.blocks.error_of_release hblocks

/-- From every state that an arena can reach, the block operations do what they should. -/
theorem blockOperations_performAll (capacity limit : Nat) (calls : List Arena.Call) :
    ((withLimit capacity limit).performAll calls).BlockOperations := by
  have h := (grown_performAll (sound_withLimit capacity limit) calls).sound
  exact {
    allocate_ok_iff := fun size => exists_allocate_iff
    allocated := fun size addr after => allocated_of_allocate
    allocate_error := fun size e => error_of_allocate
    calloc_long := fun size length => calloc_of_lt _
    calloc_error := fun size length e hle herror => by
      rw [h.calloc_eq hle, herror]
      rfl
    calloc_ok := fun size length addr fresh => h.calloc_ok
    move_ok_iff := h.exists_tryReallocate_iff
    moved := fun addr size moved after => h.moved
    move_error := fun addr size e => h.error_of_tryReallocate
    reallocate_moved := fun addr size moved after hmove => by rw [Arena.reallocate, hmove]
    reallocate_kept := fun addr size e hmove => by rw [Arena.reallocate, hmove]
    reallocate_fst_iff := h.reallocate_fst_iff
    free_ok_iff := h.exists_free_iff
    freed := fun addr after => h.freed
    free_error := fun addr e => error_of_free
    allocate_whole := edit_allocate _
    calloc_whole := h.edit_calloc
    move_whole := h.edit_tryReallocate
    reallocate_whole := h.edit_reallocate
    free_whole := edit_free _
    narrow := Ledger.perform?_ofArena h }

end Arena

end BytecodeKernel
