import BytecodeKernel.Memory.Arena
import BytecodeKernel.Proofs.Memory.Segments
/-!
What holds of an arena at all times: its table begins at address one, is in normal form and tiles
exactly the capacity, which stays within its limit. Each operation is taken apart once, into the
change of the table and the change of the bytes, and keeps the invariant. Because the table tiles
the capacity, a block that was just allocated lies in the arena, so what is written to it at once is
never out of bounds.
-/

namespace BytecodeKernel

theorem ok_of_bind {ε α β : Type} {x : Except ε α} {f : α → Except ε β} {b : β}
    (h : (x >>= f) = .ok b) : ∃ v, x = .ok v ∧ f v = .ok b := by
  cases x with
  | error e => contradiction
  | ok v => exact ⟨v, rfl, h⟩

theorem ok_of_map {ε α β : Type} {x : Except ε α} {f : α → β} {b : β} (h : x.map f = .ok b) :
    ∃ v, x = .ok v ∧ f v = b := by
  cases x with
  | error e => contradiction
  | ok v => exact ⟨v, rfl, Except.ok.inj h⟩

theorem ByteStore.getD_read (s : ByteStore) {addr count i : Nat} (h : i < count) :
    (s.read addr count).getD i 0 = s.get (addr + i) := by
  rw [List.getD_eq_getElem?_getD, List.getElem?_eq_getElem (by rwa [length_read]),
    Option.getD_some, getElem_read]

/-- A range that was cleared is zero, and nothing else has changed. -/
theorem ByteStore.get_write_replicate (s : ByteStore) (addr length x : Nat) :
    (s.write addr (List.replicate length 0)).get x
      = if addr ≤ x ∧ x < addr + length then 0 else s.get x := by
  rw [get_write, List.length_replicate]
  split
  · rw [List.getD_eq_getElem?_getD, List.getElem?_replicate_of_lt (by omega), Option.getD_some]
  · rfl

end BytecodeKernel

namespace BytecodeKernel.Arena

structure Sound (a : Arena) : Prop where
  origin : a.blocks.origin = 1
  tidy : Segment.Tidy a.blocks.segments
  extent : a.blocks.extent = a.capacity
  capacity_le : a.capacity ≤ a.limit
  limit_le : a.limit ≤ maxCapacity

variable {a after : Arena}

theorem Sound.fits (h : a.Sound) : a.blocks.Fits := by
  refine ⟨h.tidy, ?_⟩
  have hcapacity := h.capacity_le.trans h.limit_le
  rw [h.origin, h.extent]
  simp only [maxCapacity, addressLimit] at hcapacity ⊢
  omega

theorem sound_withLimit (capacity limit : Nat) : (withLimit capacity limit).Sound := by
  have hle : min capacity maxCapacity ≤ maxCapacity := Nat.min_le_right _ _
  have hfits : (Blocks.ofSize 1 (min capacity maxCapacity)).Fits := by
    apply Blocks.fits_ofSize
    simp only [maxCapacity, addressLimit] at hle ⊢
    omega
  refine ⟨rfl, hfits.tidy, Blocks.extent_ofSize _ _, Nat.le_max_left _ _, ?_⟩
  exact Nat.max_le.2 ⟨hle, Nat.min_le_right _ _⟩

/-- The invariant does not look at the bytes. -/
theorem Sound.withStore (h : a.Sound) (store : ByteStore) : ({ a with store } : Arena).Sound :=
  ⟨h.origin, h.tidy, h.extent, h.capacity_le, h.limit_le⟩

/-! ### The operations taken apart -/

theorem allocate_eq_ok {size addr : Nat} (h : a.allocate size = .ok (addr, after)) :
    ∃ blocks, a.blocks.allocate size = .ok (addr, blocks) ∧ after = { a with blocks } := by
  obtain ⟨⟨start, blocks⟩, hblocks, h⟩ := ok_of_bind h
  cases h
  exact ⟨blocks, hblocks, rfl⟩

theorem free_eq_ok {addr : Nat} (h : a.free addr = .ok after) :
    ∃ blocks, a.blocks.release addr = .ok blocks ∧ after = { a with blocks } := by
  obtain ⟨blocks, hblocks, h⟩ := ok_of_bind h
  cases h
  exact ⟨blocks, hblocks, rfl⟩

theorem write_eq_ok {addr : Nat} {bytes : List UInt8} (h : a.write addr bytes = .ok after) :
    a.InRange addr bytes.length ∧ after = { a with store := a.store.write addr bytes } := by
  unfold write at h
  split at h
  · rename_i hrange
    exact ⟨hrange, (Except.ok.inj h).symm⟩
  · contradiction

theorem copy_eq_ok {dst src length : Nat} (h : a.copy dst src length = .ok after) :
    a.InRange src length ∧ a.InRange dst length ∧
      after = { a with store := a.store.write dst (a.store.read src length) } := by
  obtain ⟨bytes, hread, h⟩ := ok_of_bind h
  unfold read at hread
  split at hread
  · rename_i hsrc
    cases hread
    split at h
    · rename_i hdst
      exact ⟨hsrc, hdst, (Except.ok.inj h).symm⟩
    · contradiction
  · contradiction

theorem reserve_eq_ok {size : Nat} {grew : Bool} (h : a.reserve size = .ok (grew, after)) :
    after = a ∨ a.capacity + size ≤ a.limit ∧
      after = { a with capacity := a.capacity + size, blocks := a.blocks.extend size } := by
  unfold reserve at h
  split at h
  · cases h
    exact .inl rfl
  · split at h
    · contradiction
    · cases h
      exact .inr ⟨by omega, rfl⟩

/-! ### The invariant is kept -/

theorem Sound.allocate {size addr : Nat} (h : a.Sound)
    (hallocate : a.allocate size = .ok (addr, after)) : after.Sound := by
  obtain ⟨blocks, hblocks, rfl⟩ := allocate_eq_ok hallocate
  obtain ⟨-, -, -, -, horigin⟩ := Blocks.allocate_eq_ok hblocks
  refine ⟨horigin.trans h.origin, (h.fits.allocate hblocks).tidy, ?_, h.capacity_le, h.limit_le⟩
  exact (Blocks.extent_of_allocate hblocks).trans h.extent

theorem Sound.free {addr : Nat} (h : a.Sound) (hfree : a.free addr = .ok after) : after.Sound := by
  obtain ⟨blocks, hblocks, rfl⟩ := free_eq_ok hfree
  obtain ⟨-, -, -, horigin⟩ := Blocks.release_eq_ok hblocks
  refine ⟨horigin.trans h.origin, (h.fits.release hblocks).tidy, ?_, h.capacity_le, h.limit_le⟩
  exact (Blocks.extent_of_release hblocks).trans h.extent

theorem Sound.reserve {size : Nat} {grew : Bool} (h : a.Sound)
    (hreserve : a.reserve size = .ok (grew, after)) : after.Sound := by
  obtain rfl | ⟨hle, rfl⟩ := reserve_eq_ok hreserve
  · exact h
  · have hbound : a.blocks.origin + a.blocks.extent + size < addressLimit := by
      have hlimit := h.limit_le
      rw [h.origin, h.extent]
      simp only [maxCapacity, addressLimit] at hlimit ⊢
      omega
    refine ⟨(Blocks.origin_extend _ _).trans h.origin, (h.fits.extend hbound).tidy, ?_, hle,
      h.limit_le⟩
    rw [Blocks.extent_extend, h.extent]

/-- Every live block lies in the arena. -/
theorem Sound.inRange_of_mem {b : Nat × Nat} (h : a.Sound) (hb : b ∈ a.blocks.liveBlocks) :
    a.InRange b.1 b.2 := by
  have hstart := Segment.le_start_of_mem_liveBlocks hb
  have hend := Segment.end_le_of_mem_liveBlocks hb
  have hextent : Segment.extent a.blocks.segments = a.capacity := h.extent
  rw [h.origin] at hstart hend
  exact ⟨by omega, by omega⟩

theorem InRange.shorter {addr length shorter : Nat} (h : a.InRange addr length)
    (hle : shorter ≤ length) : a.InRange addr shorter :=
  ⟨h.1, by have := h.2; omega⟩

theorem mem_liveBlocks_of_allocate {size addr : Nat} (h : a.allocate size = .ok (addr, after)) :
    (addr, size) ∈ after.blocks.liveBlocks := by
  obtain ⟨blocks, hblocks, rfl⟩ := allocate_eq_ok h
  obtain ⟨front, back, -, hafter⟩ := Blocks.liveBlocks_of_allocate hblocks
  simp [hafter]

/-- A block that was just allocated can be written. -/
theorem Sound.inRange_of_allocate {size addr : Nat} (h : a.Sound)
    (hallocate : a.allocate size = .ok (addr, after)) : after.InRange addr size :=
  (h.allocate hallocate).inRange_of_mem (mem_liveBlocks_of_allocate hallocate)

theorem sizeOf_eq_ok_iff {addr size : Nat} (h : a.Sound) :
    a.sizeOf addr = .ok size ↔ (addr, size) ∈ a.blocks.liveBlocks := by
  rw [← Blocks.sizeOf?_eq_some_iff h.tidy, sizeOf]
  cases a.blocks.sizeOf? addr <;> simp

/-- A block that was live before an allocation is in the arena afterwards. -/
theorem Sound.inRange_of_live {addr old size moved : Nat} (h : a.Sound)
    (hold : (addr, old) ∈ a.blocks.liveBlocks) (hallocate : a.allocate size = .ok (moved, after)) :
    after.InRange addr old := by
  obtain ⟨blocks, -, rfl⟩ := allocate_eq_ok hallocate
  exact h.inRange_of_mem hold

theorem calloc_of_lt (a : Arena) {size length : Nat} (hlt : size < length) :
    a.calloc size length = .error (.invalidLength size length) := by
  rw [calloc]
  rw [if_pos hlt]
  rfl

/-- Clearing a fresh block cannot fail, so a failure is one of allocation. -/
theorem Sound.calloc_eq (h : a.Sound) {size length : Nat} (hle : length ≤ size) :
    a.calloc size length =
      (a.allocate size).map fun (addr, a) =>
        (addr, { a with store := a.store.write addr (List.replicate length 0) }) := by
  rw [calloc]
  cases hallocate : a.allocate size with
  | error e => simp [Nat.not_lt.2 hle, bind, Except.bind, Except.map]
  | ok result =>
    obtain ⟨addr, fresh⟩ := result
    have hrange : fresh.InRange addr length := (h.inRange_of_allocate hallocate).shorter hle
    simp [Nat.not_lt.2 hle, write, hrange, bind, Except.bind, Except.map, pure, Except.pure]

/-- Copying to a fresh block cannot fail, so a failure is one of allocation. -/
theorem Sound.tryReallocate_eq (h : a.Sound) {addr old size : Nat}
    (hold : (addr, old) ∈ a.blocks.liveBlocks) :
    a.tryReallocate addr size =
      (a.allocate size).map fun (moved, a) =>
        (moved, { a with store := a.store.write moved (a.store.read addr (min old size)) }) := by
  rw [tryReallocate]
  rw [(sizeOf_eq_ok_iff h).2 hold]
  cases hallocate : a.allocate size with
  | error e => simp [bind, Except.bind, Except.map]
  | ok result =>
    obtain ⟨moved, fresh⟩ := result
    have hdst : fresh.InRange moved (min old size) :=
      (h.inRange_of_allocate hallocate).shorter (Nat.min_le_right _ _)
    have hsrc : fresh.InRange addr (min old size) :=
      (h.inRange_of_live hold hallocate).shorter (Nat.min_le_left _ _)
    simp [copy, read, hdst, hsrc, bind, Except.bind, Except.map, pure, Except.pure]

theorem Sound.tryReallocate_eq_ok {addr size moved : Nat} (h : a.Sound)
    (hmove : a.tryReallocate addr size = .ok (moved, after)) :
    ∃ old fresh, (addr, old) ∈ a.blocks.liveBlocks ∧ a.allocate size = .ok (moved, fresh) ∧
      after = { fresh with
        store := fresh.store.write moved (fresh.store.read addr (min old size)) } := by
  obtain ⟨old, hold, -⟩ := ok_of_bind hmove
  have hmem := (sizeOf_eq_ok_iff h).1 hold
  rw [h.tryReallocate_eq hmem] at hmove
  obtain ⟨⟨start, fresh⟩, hallocate, hafter⟩ := ok_of_map hmove
  cases hafter
  exact ⟨old, fresh, hmem, hallocate, rfl⟩

theorem Sound.calloc_eq_ok {addr size length : Nat} (h : a.Sound)
    (hcalloc : a.calloc size length = .ok (addr, after)) :
    length ≤ size ∧ ∃ fresh, a.allocate size = .ok (addr, fresh) ∧
      after = { fresh with store := fresh.store.write addr (List.replicate length 0) } := by
  rcases Nat.lt_or_ge size length with hlt | hle
  · rw [calloc_of_lt a hlt] at hcalloc
    contradiction
  · rw [h.calloc_eq hle] at hcalloc
    obtain ⟨⟨start, fresh⟩, hallocate, hafter⟩ := ok_of_map hcalloc
    cases hafter
    exact ⟨hle, fresh, hallocate, rfl⟩

end BytecodeKernel.Arena
