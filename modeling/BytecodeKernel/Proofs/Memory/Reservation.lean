import BytecodeKernel.Proofs.Memory.Allocation
/-!
What reserving does, from any state that an arena can reach. Either some free range is large enough
and nothing happens, or the arena grows at its end by exactly the size asked for, or the limit
forbids it. New bytes are zero because no byte above the capacity was ever written.
-/

namespace BytecodeKernel

namespace Segment

/-- What is added at the end joins the last segment where that is free, and nothing else. -/
theorem Tidy.foldr_join_free {segments : List Segment} (h : Tidy segments) {n : Nat} (hn : 0 < n) :
    (∃ front m, segments = front ++ [free m] ∧
        segments.foldr Segment.join [free n] = front ++ [free (m + n)]) ∨
      segments.foldr Segment.join [free n] = segments ++ [free n] := by
  have hlast {m : Nat} (hm : 0 < m) : Tidy [free m] := tidy_nil.free_cons hm (by simp)
  induction segments using List.reverseRecOn with
  | nil => exact .inr rfl
  | append_singleton front s _ =>
    cases s with
    | free m =>
      refine .inl ⟨front, m, rfl, ?_⟩
      have htidy : Tidy (front ++ [free (m + n)]) := by
        refine h.append_left.append (hlast (by omega)) fun s hs t ht => ?_
        obtain rfl : free (m + n) = t := by simpa using ht
        exact h.seam s hs (free m) (by simp)
      rw [List.foldr_append]
      exact foldr_join_eq_append htidy
    | live m =>
      right
      apply foldr_join_eq_append
      refine h.append (hlast hn) fun s hs t ht => ?_
      obtain rfl : live m = s := by simpa using hs
      simp [isFree]

end Segment

namespace Blocks

variable {b : Blocks} {size : Nat}

/-- The free ranges of a table that was extended: the last one now reaches to the new end if it
reached to the old one, and otherwise there is a new one. -/
theorem freeRanges_extend (h : Segment.Tidy b.segments) (hsize : 0 < size) :
    (∃ front start, b.freeRanges = front ++ [(start, b.origin + b.extent)] ∧
        (b.extend size).freeRanges = front ++ [(start, b.origin + b.extent + size)]) ∨
      (∀ r ∈ b.freeRanges, r.2 < b.origin + b.extent) ∧
        (b.extend size).freeRanges =
          b.freeRanges ++ [(b.origin + b.extent, b.origin + b.extent + size)] := by
  rw [extend, if_neg hsize.ne']
  simp only [freeRanges, extent]
  rcases h.foldr_join_free hsize with ⟨front, m, hsplit, hjoined⟩ | hjoined
  · refine .inl ⟨Segment.freeRanges b.origin front, b.origin + Segment.extent front, ?_, ?_⟩
    · rw [hsplit, Segment.freeRanges_append, Segment.extent_append]
      simp [Segment.freeRanges, Segment.size, Nat.add_assoc]
    · rw [hjoined, hsplit, Segment.freeRanges_append, Segment.extent_append]
      simp [Segment.freeRanges, Segment.size, Nat.add_assoc]
  · refine .inr ⟨fun r hr => ?_, ?_⟩
    · have htidy : Segment.Tidy (b.segments.foldr Segment.join [.free size]) :=
        (Segment.tidy_nil.free_cons hsize (by simp)).foldr_join h.pos
      rw [hjoined] at htidy
      exact Segment.end_lt_of_before_free htidy hr
    · rw [hjoined, Segment.freeRanges_append]
      rfl

end Blocks

namespace Arena

variable {a after : Arena} {size : Nat}

/-! ### Bytes above the capacity -/

/-- No byte above the capacity was ever written. -/
def Blank (a : Arena) : Prop :=
  ∀ x, a.capacity < x → a.store.get x = 0

theorem blank_withLimit (capacity limit : Nat) : (withLimit capacity limit).Blank :=
  fun x _ => ByteStore.get_empty x

theorem Blank.withBlocks (h : a.Blank) (blocks : Blocks) : ({ a with blocks } : Arena).Blank :=
  h

/-- A write stays below the capacity. -/
theorem Blank.write (h : a.Blank) {addr : Nat} {bytes : List UInt8}
    (hrange : a.InRange addr bytes.length) :
    ({ a with store := a.store.write addr bytes } : Arena).Blank := by
  intro x hx
  have hend := hrange.2
  have hout : ¬ (addr ≤ x ∧ x < addr + bytes.length) := by
    change a.capacity < x at hx
    omega
  rw [ByteStore.get_write, if_neg hout]
  exact h x hx

theorem Blank.settle {x : Except MemoryError Arena} (h : a.Blank)
    (hx : ∀ after, x = .ok after → after.Blank) : (a.settle x).Blank := by
  cases x with
  | error e => exact h
  | ok after => exact hx after rfl

theorem Blank.settle_map {α : Type} {x : Except MemoryError (α × Arena)} (h : a.Blank)
    (hx : ∀ v after, x = .ok (v, after) → after.Blank) : (a.settle (x.map (·.2))).Blank := by
  refine h.settle fun after hafter => ?_
  obtain ⟨⟨v, reached⟩, hx', rfl⟩ := ok_of_map hafter
  exact hx v reached hx'

theorem Blank.of_write (h : a.Blank) {addr : Nat} {bytes : List UInt8}
    (hwrite : a.write addr bytes = .ok after) : after.Blank := by
  obtain ⟨hrange, rfl⟩ := write_eq_ok hwrite
  exact h.write hrange

theorem Blank.of_copy (h : a.Blank) {dst src length : Nat}
    (hcopy : a.copy dst src length = .ok after) : after.Blank := by
  obtain ⟨-, hrange, rfl⟩ := copy_eq_ok hcopy
  rw [← a.store.length_read src length] at hrange
  exact h.write hrange

/-- Also where only the first of the two copies was made. -/
theorem Blank.concatCopy (h : a.Blank) (dst srcA srcB length : Nat) :
    (a.concatCopy dst srcA srcB length).2.Blank := by
  unfold Arena.concatCopy
  simp only
  split
  · exact h
  · split
    · exact h
    · split
      · exact h
      · rename_i first hfirst
        have hcopied := h.of_copy hfirst
        split
        · exact hcopied
        · exact hcopied.of_copy ‹_›

theorem Blank.of_allocate (h : a.Blank) {addr : Nat}
    (hallocate : a.allocate size = .ok (addr, after)) : after.Blank := by
  obtain ⟨blocks, -, rfl⟩ := allocate_eq_ok hallocate
  exact h.withBlocks blocks

theorem Blank.of_tryReallocate (h : a.Blank) (hs : a.Sound) {addr moved : Nat}
    (hmove : a.tryReallocate addr size = .ok (moved, after)) : after.Blank := by
  obtain ⟨old, fresh, -, hallocate, rfl⟩ := hs.tryReallocate_eq_ok hmove
  apply (h.of_allocate hallocate).write
  rw [ByteStore.length_read]
  exact (hs.inRange_of_allocate hallocate).shorter (Nat.min_le_right _ _)

theorem Blank.of_calloc (h : a.Blank) (hs : a.Sound) {length addr : Nat}
    (hcalloc : a.calloc size length = .ok (addr, after)) : after.Blank := by
  obtain ⟨hle, fresh, hallocate, rfl⟩ := hs.calloc_eq_ok hcalloc
  apply (h.of_allocate hallocate).write
  rw [List.length_replicate]
  exact (hs.inRange_of_allocate hallocate).shorter hle

theorem Blank.of_reserve (h : a.Blank) {grew : Bool}
    (hreserve : a.reserve size = .ok (grew, after)) : after.Blank := by
  obtain rfl | ⟨-, rfl⟩ := reserve_eq_ok hreserve
  · exact h
  · exact fun x hx => h x ((Nat.le_add_right _ _).trans_lt hx)

theorem Blank.perform (h : a.Blank) (hs : a.Sound) (call : Call) : (a.perform call).Blank := by
  cases call with
  | allocate size => exact h.settle_map fun _ _ => h.of_allocate
  | calloc size length => exact h.settle_map fun _ _ => h.of_calloc hs
  | tryReallocate addr size => exact h.settle_map fun _ _ => h.of_tryReallocate hs
  | reallocate addr size =>
    simp only [Arena.perform, Arena.reallocate]
    cases hmove : a.tryReallocate addr size with
    | error e => exact h
    | ok result => exact h.of_tryReallocate hs hmove
  | free addr =>
    refine h.settle fun after hfree => ?_
    obtain ⟨blocks, -, rfl⟩ := free_eq_ok hfree
    exact h.withBlocks blocks
  | reserve size => exact h.settle_map fun _ _ => h.of_reserve
  | write addr bytes => exact h.settle fun _ => h.of_write
  | setSigned width addr v => exact h.settle fun _ => h.of_write
  | setSlot addr v => exact h.settle fun _ => h.of_write
  | copy dst src length => exact h.settle fun _ => h.of_copy
  | concatCopy dst srcA srcB length => exact h.concatCopy dst srcA srcB length
  | sizeOf | read | getSigned | getSlot => exact h

theorem Blank.performAll (h : a.Blank) (hs : a.Sound) (calls : List Call) :
    (a.performAll calls).Blank := by
  induction calls generalizing a with
  | nil => exact h
  | cons call rest ih => exact ih (h.perform hs call) (grown_perform hs call).sound

/-! ### Reserving -/

/-- No free range is large enough. -/
def Crowded (a : Arena) (size : Nat) : Prop :=
  ∀ r ∈ a.blocks.freeRanges, r.2 < r.1 + size

theorem largestFree_lt_iff (a : Arena) (size : Nat) :
    a.blocks.largestFree < size ↔ 0 < size ∧ a.Crowded size := by
  obtain ⟨hle, hattained⟩ := a.blocks.isLargest_largestFree
  constructor
  · intro hlt
    refine ⟨by omega, fun r hr => ?_⟩
    have hr' := hle r hr
    omega
  · rintro ⟨hsize, hcrowded⟩
    rcases hattained with ⟨r, hr, hstop⟩ | ⟨-, hzero⟩
    · have hr' := hcrowded r hr
      omega
    · omega

/-- What growing did: so many bytes more, all zero and free, behind what there was. -/
structure GrownBy (a : Arena) (size : Nat) (after : Arena) : Prop where
  capacity : after.capacity = a.capacity + size
  within : a.capacity + size ≤ a.limit
  limit : after.limit = a.limit
  live : after.blocks.liveBlocks = a.blocks.liveBlocks
  /-- The new range is part of the free range that ended at the old capacity, if there was one. -/
  free : (∃ front start, a.blocks.freeRanges = front ++ [(start, a.capacity + 1)] ∧
      after.blocks.freeRanges = front ++ [(start, after.capacity + 1)]) ∨
    (∀ r ∈ a.blocks.freeRanges, r.2 < a.capacity + 1) ∧
      after.blocks.freeRanges = a.blocks.freeRanges ++ [(a.capacity + 1, after.capacity + 1)]
  store : after.store = a.store
  zero : ∀ x, a.capacity < x → x ≤ after.capacity → after.store.get x = 0

/-- When a reservation succeeds, what it then does, and what else it answers. -/
structure Reservations (a : Arena) : Prop where
  ready : ∀ size grew after, a.reserve size = .ok (grew, after) → ∀ n, 1 ≤ n → n ≤ size →
    ∃ addr later, after.allocate n = .ok (addr, later)
  grew_iff : ∀ size grew after, a.reserve size = .ok (grew, after) →
    (grew = true ↔ 0 < size ∧ a.Crowded size)
  grown : ∀ size after, a.reserve size = .ok (true, after) → a.GrownBy size after
  kept : ∀ size after, a.reserve size = .ok (false, after) → after = a
  error_iff : ∀ size, (∃ e, a.reserve size = .error e) ↔
    a.Crowded size ∧ a.limit < a.capacity + size
  error : ∀ size e, a.reserve size = .error e → e = .growthLimit (a.capacity + size) a.limit
  /-- Done in place, it comes to the same, and a failure has changed nothing. -/
  whole : ∀ size, Edit.reserve size a = a.allOrNothing (a.reserve size)
  /-- Computed in 32 bits, it comes to the same too. -/
  narrow : ∀ size, (Ledger.ofArena a).reserve? size
    = some (Ledger.ofArena (a.settle ((a.reserve size).map (·.2))))

theorem Sound.grownBy (h : a.Sound) (hblank : a.Blank)
    (hreserve : a.reserve size = .ok (true, after)) : a.GrownBy size after := by
  rw [Arena.reserve] at hreserve
  split at hreserve
  · cases hreserve
  · rename_i hlarge
    have hsize := ((a.largestFree_lt_iff size).1 (Nat.lt_of_not_le hlarge)).1
    split at hreserve
    · contradiction
    · cases hreserve
      refine ⟨rfl, by omega, rfl, Blocks.liveBlocks_extend _ _, ?_, rfl, fun x hx _ => hblank x hx⟩
      have hend : a.blocks.origin + a.blocks.extent = a.capacity + 1 := by
        rw [h.origin, h.extent, Nat.add_comm]
      have hfree := Blocks.freeRanges_extend h.tidy hsize
      rw [hend, show a.capacity + 1 + size = a.capacity + size + 1 by omega] at hfree
      exact hfree

theorem grew_iff {grew : Bool} (h : a.reserve size = .ok (grew, after)) :
    grew = true ↔ 0 < size ∧ a.Crowded size := by
  rw [← a.largestFree_lt_iff, ← Nat.not_le]
  rw [Arena.reserve] at h
  split at h
  · rename_i hle
    cases h
    simpa using hle
  · rename_i hlarge
    split at h
    · contradiction
    · cases h
      simpa using hlarge

theorem eq_of_reserve_false (h : a.reserve size = .ok (false, after)) : after = a := by
  rw [Arena.reserve] at h
  split at h
  · cases h
    rfl
  · split at h <;> cases h

/-- Nothing but the limit stands in the way of growing. -/
theorem reserve_eq_error_iff {e : MemoryError} : a.reserve size = .error e ↔
    (0 < size ∧ a.Crowded size) ∧ a.limit < a.capacity + size ∧
      e = .growthLimit (a.capacity + size) a.limit := by
  rw [← a.largestFree_lt_iff, Arena.reserve]
  split
  · rename_i hle
    simp [hle.not_gt]
  · rename_i hlarge
    split
    · rename_i hlimit
      simp [Nat.lt_of_not_le hlarge, hlimit, eq_comm]
    · rename_i hlimit
      simp [hlimit]

/-- A block no larger than what was reserved can be allocated. -/
theorem exists_allocate_of_le {grew : Bool} {n : Nat} (h : a.reserve size = .ok (grew, after))
    (hpos : 1 ≤ n) (hle : n ≤ size) : ∃ addr later, after.allocate n = .ok (addr, later) := by
  have hlarge := exists_allocate_of_reserve (by omega) h
  obtain ⟨-, r, hr, hfit⟩ := exists_allocate_iff.1 hlarge
  exact exists_allocate_iff.2 ⟨hpos, r, hr, by omega⟩

/-- From every state that an arena can reach, reserving does what it should. -/
theorem reservations_performAll (capacity limit : Nat) (calls : List Call) :
    ((withLimit capacity limit).performAll calls).Reservations := by
  have hstart := sound_withLimit capacity limit
  have hgrown := grown_performAll hstart calls
  have h := hgrown.sound
  have hblank := (blank_withLimit capacity limit).performAll hstart calls
  exact {
    ready := fun size grew after hreserve n => exists_allocate_of_le hreserve
    grew_iff := fun size grew after => grew_iff
    grown := fun size after => h.grownBy hblank
    kept := fun size after => eq_of_reserve_false
    error_iff := fun size => by
      simp only [reserve_eq_error_iff]
      have hcapacity := h.capacity_le
      constructor
      · rintro ⟨e, ⟨-, hcrowded⟩, hlimit, -⟩
        exact ⟨hcrowded, hlimit⟩
      · rintro ⟨hcrowded, hlimit⟩
        exact ⟨_, ⟨by omega, hcrowded⟩, hlimit, rfl⟩
    error := fun size e herror => (reserve_eq_error_iff.1 herror).2.2
    whole := edit_reserve _
    narrow := Ledger.reserve?_ofArena h }

/-- To reserve nothing grows nothing, also where nothing is free and so no free range holds it. -/
theorem reserve_nothing_when_full :
    ¬ ∀ (capacity limit : Nat) (calls : List Call) (size : Nat) (grew : Bool) (after : Arena),
      let a := (withLimit capacity limit).performAll calls
      a.reserve size = .ok (grew, after) → (grew = true ↔ a.Crowded size) := by
  intro h
  have hgrew := h 4 8 [.allocate 4] 0 false ((withLimit 4 8).performAll [.allocate 4]) rfl
  have hcrowded : ((withLimit 4 8).performAll [.allocate 4]).Crowded 0 := by
    intro r hr
    have hnone : ((withLimit 4 8).performAll [.allocate 4]).blocks.freeRanges = [] := by decide
    rw [hnone] at hr
    contradiction
  exact Bool.false_ne_true (hgrew.2 hcrowded)

end Arena

end BytecodeKernel
