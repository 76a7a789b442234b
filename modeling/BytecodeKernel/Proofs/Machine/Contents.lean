import BytecodeKernel.Proofs.Machine.Stacks
/-!
What is read in a region that its owner has. Inside of a live block no access is out of range, and
what is read are the bytes of the block, so objects that keep their region and its bytes read the
same as before.
-/

namespace BytecodeKernel

theorem ByteStore.read_congr {s t : ByteStore} {addr count : Nat}
    (h : ∀ x, addr ≤ x → x < addr + count → t.get x = s.get x) :
    t.read addr count = s.read addr count := by
  rw [read, read]
  refine List.map_congr_left fun x hx => ?_
  obtain ⟨hle, hlt⟩ := List.mem_range'_1.1 hx
  exact h x hle hlt

namespace Arena

variable {a b : Arena} {regions regions' : List (Nat × Nat)} {r : Nat × Nat} {addr length : Nat}

/-- What the bytes are does not matter for where they can be. -/
theorem InRange.withStore (h : a.InRange addr length) (store : ByteStore) :
    ({ a with store } : Arena).InRange addr length :=
  ⟨h.1, h.2⟩

theorem write_replicate (h : a.InRange addr length) (b : UInt8) :
    a.write addr (List.replicate length b) =
      .ok { a with store := a.store.write addr (List.replicate length b) } := by
  rw [Arena.write, List.length_replicate]
  exact if_pos h

theorem Owns.inRange (h : a.Owns regions) (hr : r ∈ regions) (hle : r.1 ≤ addr)
    (hend : addr + length ≤ r.1 + r.2) : a.InRange addr length := by
  obtain ⟨hnull, hbound⟩ := h.sound.inRange_of_mem (h.mem_iff.2 hr)
  exact ⟨by omega, by omega⟩

/-- Addresses inside of a live block, and the one behind it, are addresses. -/
theorem Owns.add? (h : a.Owns regions) (hr : r ∈ regions) {offset : Nat} (hle : offset ≤ r.2) :
    Address.add? r.1 offset = some (r.1 + offset) := by
  obtain ⟨-, hbound⟩ := h.sound.inRange_of_mem (h.mem_iff.2 hr)
  have hcapacity := h.sound.capacity_le.trans h.sound.limit_le
  refine if_pos ?_
  simp only [maxCapacity, addressLimit] at hcapacity ⊢
  omega

theorem Owns.read (h : a.Owns regions) (hr : r ∈ regions) (hle : r.1 ≤ addr)
    (hend : addr + length ≤ r.1 + r.2) : a.read addr length = .ok (a.store.read addr length) :=
  if_pos (h.inRange hr hle hend)

theorem Owns.getSlot (h : a.Owns regions) (hr : r ∈ regions) (hle : r.1 ≤ addr)
    (hend : addr + slotSize ≤ r.1 + r.2) :
    a.getSlot addr = .ok (slotOfBytes (a.store.read addr slotSize)) := by
  have hread : a.read addr 8 = .ok (a.store.read addr slotSize) := h.read hr hle hend
  simp only [Arena.getSlot, hread, bind, Except.bind, pure, Except.pure]

/-- The same is read in both arenas. -/
theorem Owns.read_congr (ha : a.Owns regions) (hr : r ∈ regions) (hb : b.Owns regions')
    (hr' : r ∈ regions') (hspares : Spares [r] a b) (hle : r.1 ≤ addr)
    (hend : addr + length ≤ r.1 + r.2) : b.read addr length = a.read addr length := by
  rw [ha.read hr hle hend, hb.read hr' hle hend]
  refine congrArg _ (ByteStore.read_congr fun x hx hx' => ?_)
  exact hspares.bytes r (List.mem_singleton_self _) x (by omega) (by omega)

/-- A block that is moved has its bytes in the new place, as far as they fit there. -/
theorem Owns.get_moved (h : a.Owns regions) {old size moved : Nat} (hr : (addr, old) ∈ regions)
    (hmove : a.tryReallocate addr size = .ok (moved, b)) {i : Nat} (hi : i < old)
    (hi' : i < size) : b.store.get (moved + i) = a.store.get (addr + i) := by
  obtain ⟨found, fresh, hfound, hallocate, rfl⟩ := h.sound.tryReallocate_eq_ok hmove
  obtain rfl : found = old := h.size_unique (h.mem_iff.1 hfound) hr
  obtain ⟨blocks, -, rfl⟩ := allocate_eq_ok hallocate
  have hlt : i < min found size := Nat.lt_min.2 ⟨hi, hi'⟩
  rw [ByteStore.get_write, if_pos (by rw [ByteStore.length_read]; omega), Nat.add_sub_cancel_left,
    ByteStore.getD_read _ hlt]

end Arena

variable {a b : Arena} {regions regions' : List (Nat × Nat)}

namespace Stack

/-- The operands as the bytes of the region have them, oldest first. -/
def slots (s : Stack) (a : Arena) : List Int64 :=
  (List.range s.length).map fun i => slotOfBytes (a.store.read (s.base + i * slotSize) slotSize)

/-- The cursor that one of the frames in a region returns to. -/
def returnOf (region : Nat) (a : Arena) (index : Nat) : Nat :=
  (slotOfBytes (a.store.read (region + index * frameSize) slotSize)).toUInt64.toNat % addressLimit

/-- The cursors that the open frames return to, newest first. -/
def returns (s : Stack) (a : Arena) : List Nat :=
  s.frames.elim [] fun region => ((List.range s.depth).map (returnOf region a)).reverse

variable {s : Stack}

theorem end_le_of_lt_length {i : Nat} (hi : i < s.length) : i * slotSize + slotSize ≤ s.top := by
  have hlt : i < s.top / slotSize := hi
  simp only [slotSize] at hlt ⊢
  omega

/-- The operands are the slots, for all of these can be read. -/
theorem operands_eq_slots (htop : s.top ≤ s.size) (ha : a.Owns regions)
    (hr : s.operandRegion ∈ regions) : s.operands a = s.slots a := by
  have hread : ∀ i ∈ List.range s.length,
      (do (a.getSlot (← Address.add? s.base (i * slotSize))).toOption) =
        some (slotOfBytes (a.store.read (s.base + i * slotSize) slotSize)) := by
    intro i hi
    have hend := end_le_of_lt_length (List.mem_range.1 hi)
    have hadd : Address.add? s.base (i * slotSize) = some (s.base + i * slotSize) :=
      ha.add? hr (show i * slotSize ≤ s.size by omega)
    have hslot : a.read (s.base + i * slotSize) 8 =
        .ok (a.store.read (s.base + i * slotSize) slotSize) := by
      apply ha.read hr
      · exact Nat.le_add_right _ _
      · show s.base + i * slotSize + slotSize ≤ s.base + s.size
        omega
    simp only [hadd, Option.bind_some, Arena.getSlot, hslot, bind,
      Except.bind, pure, Except.pure, Except.toOption]
  rw [operands, slots, List.filterMap_congr hread, List.filterMap_eq_map']

/-- The operands depend on the bytes below the top alone. -/
theorem slots_congr (h : ∀ x, s.base ≤ x → x < s.base + s.top → b.store.get x = a.store.get x) :
    s.slots b = s.slots a := by
  rw [slots, slots]
  refine List.map_congr_left fun i hi => congrArg _ (ByteStore.read_congr fun x hle hlt => ?_)
  have hend := end_le_of_lt_length (List.mem_range.1 hi)
  exact h x (by omega) (by omega)

theorem operands_congr (htop : s.top ≤ s.size) (ha : a.Owns regions)
    (hr : s.operandRegion ∈ regions) (hb : b.Owns regions') (hr' : s.operandRegion ∈ regions')
    (hspares : Arena.Spares [s.operandRegion] a b) : s.operands b = s.operands a := by
  rw [operands_eq_slots htop ha hr, operands_eq_slots htop hb hr']
  refine slots_congr fun x hle hlt => hspares.bytes _ (List.mem_singleton_self _) x hle ?_
  show x < s.base + s.size
  omega

end Stack

namespace Heap

theorem read?_congr {h : Heap} (ha : a.Owns regions) (hr : h.region ∈ regions)
    (hb : b.Owns regions') (hr' : h.region ∈ regions') (hspares : Arena.Spares [h.region] a b)
    (addr length : Nat) : h.read? b addr length = h.read? a addr length := by
  rw [read?, read?]
  cases hlocate : h.locate? addr length with
  | none => rfl
  | some phys =>
    obtain ⟨hle, hend⟩ := locate?_eq_some hlocate
    have hread : b.read phys length = a.read phys length :=
      ha.read_congr hr hb hr' hspares hle hend
    simp only [Option.bind_eq_bind, Option.bind_some, hread]

theorem readBlock_congr {h : Heap} (ha : a.Owns regions) (hr : h.region ∈ regions)
    (hb : b.Owns regions') (hr' : h.region ∈ regions') (hspares : Arena.Spares [h.region] a b)
    (addr : Nat) : h.readBlock b addr = h.readBlock a addr := by
  rw [readBlock, readBlock]
  cases h.sizeOf addr with
  | error e => rfl
  | ok length =>
    simp only [bind, Except.bind]
    cases hlocate : h.locate? addr length with
    | none => rfl
    | some phys =>
      obtain ⟨hle, hend⟩ := locate?_eq_some hlocate
      exact ha.read_congr hr hb hr' hspares hle hend

end Heap

end BytecodeKernel
