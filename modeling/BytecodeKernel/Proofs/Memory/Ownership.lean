import BytecodeKernel.Proofs.Memory.Soundness
/-!
Ownership of the live blocks. `Owns a regions` says that the live blocks are the given regions, each
with its size; `Spares kept a b` that the bytes of the kept regions are the same in both arenas. An
operation is described by the region it adds or takes, with the others as a frame that it spares.
-/

namespace BytecodeKernel.Arena

/-- The live blocks are these regions, each given by its start and its size. -/
structure Owns (a : Arena) (regions : List (Nat × Nat)) : Prop where
  sound : a.Sound
  live : a.blocks.liveBlocks.Perm regions

structure Spares (kept : List (Nat × Nat)) (a b : Arena) : Prop where
  limit : b.limit = a.limit
  bytes : ∀ r ∈ kept, ∀ x, r.1 ≤ x → x < r.1 + r.2 → b.store.get x = a.store.get x

variable {a after : Arena} {regions kept : List (Nat × Nat)}

theorem Spares.refl (kept : List (Nat × Nat)) (a : Arena) : Spares kept a a :=
  ⟨rfl, fun _ _ _ _ _ => rfl⟩

theorem Spares.trans {b c : Arena} (hab : Spares kept a b) (hbc : Spares kept b c) :
    Spares kept a c := by
  refine ⟨hbc.limit.trans hab.limit, fun r hr x hle hlt => ?_⟩
  rw [hbc.bytes r hr x hle hlt, hab.bytes r hr x hle hlt]

theorem Spares.subset {b : Arena} {fewer : List (Nat × Nat)} (h : Spares kept a b)
    (hsub : ∀ r ∈ fewer, r ∈ kept) : Spares fewer a b :=
  ⟨h.limit, fun r hr => h.bytes r (hsub r hr)⟩

/-- Nothing was written at all. -/
theorem spares_of_store_eq {b : Arena} (hlimit : b.limit = a.limit) (hstore : b.store = a.store)
    (kept : List (Nat × Nat)) : Spares kept a b :=
  ⟨hlimit, fun _ _ _ _ _ => by rw [hstore]⟩

theorem Owns.perm (h : a.Owns regions) {others : List (Nat × Nat)} (hperm : regions.Perm others) :
    a.Owns others :=
  ⟨h.sound, h.live.trans hperm⟩

theorem Owns.mem_iff (h : a.Owns regions) {r : Nat × Nat} :
    r ∈ a.blocks.liveBlocks ↔ r ∈ regions :=
  h.live.mem_iff

/-- The regions are pairwise disjoint, in whatever order they are listed. -/
theorem Owns.disjoint (h : a.Owns regions) :
    regions.Pairwise fun r s => r.1 + r.2 ≤ s.1 ∨ s.1 + s.2 ≤ r.1 := by
  have hlive : a.blocks.liveBlocks.Pairwise fun r s => r.1 + r.2 ≤ s.1 ∨ s.1 + s.2 ≤ r.1 :=
    (Segment.liveBlocks_pairwise _ _).imp .inl
  refine (h.live.pairwise_iff ?_).1 hlive
  intro r s hrs
  exact hrs.symm

theorem Owns.disjoint_head {r : Nat × Nat} (h : a.Owns (r :: regions)) :
    ∀ s ∈ regions, r.1 + r.2 ≤ s.1 ∨ s.1 + s.2 ≤ r.1 :=
  (List.pairwise_cons.1 h.disjoint).1

theorem Owns.pos (h : a.Owns regions) {r : Nat × Nat} (hr : r ∈ regions) : 0 < r.2 :=
  Segment.liveBlocks_pos h.sound.tidy (h.mem_iff.2 hr)

/-- No region is listed twice. -/
theorem Owns.nodup (h : a.Owns regions) : regions.Nodup := by
  refine h.disjoint.imp_of_mem ?_
  rintro r s hr - hdisjoint rfl
  have hpos := h.pos hr
  omega

/-- A write to a region spares the others. -/
theorem Owns.spares_write {r : Nat × Nat} (h : a.Owns (r :: regions)) {addr : Nat}
    {bytes : List UInt8} (hle : r.1 ≤ addr) (hend : addr + bytes.length ≤ r.1 + r.2) :
    Spares regions a { a with store := a.store.write addr bytes } := by
  refine ⟨rfl, fun s hs x hlo hhi => ?_⟩
  have hdisjoint := h.disjoint_head s hs
  rw [ByteStore.get_write, if_neg (by omega)]

theorem Owns.withStore (h : a.Owns regions) (store : ByteStore) :
    ({ a with store } : Arena).Owns regions :=
  ⟨h.sound.withStore store, h.live⟩

/-! ### The operations -/

theorem Owns.allocate {size addr : Nat} (h : a.Owns regions)
    (hallocate : a.allocate size = .ok (addr, after)) :
    after.Owns ((addr, size) :: regions) ∧ after.store = a.store ∧ after.limit = a.limit := by
  have hsound := h.sound.allocate hallocate
  obtain ⟨blocks, hblocks, rfl⟩ := allocate_eq_ok hallocate
  obtain ⟨front, back, hbefore, hafter⟩ := Blocks.liveBlocks_of_allocate hblocks
  refine ⟨⟨hsound, ?_⟩, rfl, rfl⟩
  have hregions : (front ++ back).Perm regions := hbefore ▸ h.live
  rw [hafter]
  exact List.perm_middle.trans (hregions.cons _)

/-- Two live blocks with one start are one block. -/
theorem Owns.size_unique (h : a.Owns regions) {addr m n : Nat} (hm : (addr, m) ∈ regions)
    (hn : (addr, n) ∈ regions) : m = n := by
  have hfirst := (sizeOf_eq_ok_iff h.sound).2 (h.mem_iff.2 hm)
  have hsecond := (sizeOf_eq_ok_iff h.sound).2 (h.mem_iff.2 hn)
  exact Except.ok.inj (hfirst.symm.trans hsecond)

theorem Owns.of_free {addr : Nat} (h : a.Owns regions) (hfree : a.free addr = .ok after) :
    ∃ size rest, regions.Perm ((addr, size) :: rest) ∧ after.Owns rest ∧
      after.store = a.store ∧ after.limit = a.limit := by
  have hsound := h.sound.free hfree
  obtain ⟨blocks, hblocks, rfl⟩ := free_eq_ok hfree
  obtain ⟨front, size, back, hbefore, hafter⟩ := Blocks.liveBlocks_of_release hblocks
  refine ⟨size, front ++ back, ?_, ⟨hsound, ?_⟩, rfl, rfl⟩
  · have hregions : (front ++ (addr, size) :: back).Perm regions := hbefore ▸ h.live
    exact hregions.symm.trans List.perm_middle
  · rw [hafter]

theorem Owns.exists_free {addr size : Nat} (h : a.Owns regions) (hmem : (addr, size) ∈ regions) :
    ∃ after, a.free addr = .ok after := by
  obtain ⟨blocks, hblocks⟩ := Blocks.exists_release h.sound.tidy (h.mem_iff.2 hmem)
  exact ⟨{ a with blocks }, by rw [Arena.free, hblocks]; rfl⟩

/-- An owned block can be freed, and nothing else happens. -/
theorem Owns.free {addr size : Nat} (h : a.Owns ((addr, size) :: regions)) :
    ∃ after, a.free addr = .ok after ∧ after.Owns regions ∧ after.store = a.store ∧
      after.limit = a.limit := by
  obtain ⟨after, hfree⟩ := h.exists_free List.mem_cons_self
  obtain ⟨found, rest, hperm, howns, hstore, hlimit⟩ := h.of_free hfree
  obtain rfl : found = size :=
    h.size_unique (hperm.mem_iff.2 List.mem_cons_self) List.mem_cons_self
  exact ⟨after, hfree, howns.perm hperm.cons_inv.symm, hstore, hlimit⟩

theorem Owns.discard {addr size : Nat} (h : a.Owns ((addr, size) :: regions)) :
    (a.discard addr).Owns regions ∧ (a.discard addr).store = a.store ∧
      (a.discard addr).limit = a.limit := by
  obtain ⟨after, hfree, howns⟩ := h.free
  rw [Arena.discard, hfree]
  exact howns

theorem Owns.reserve {size : Nat} {grew : Bool} (h : a.Owns regions)
    (hreserve : a.reserve size = .ok (grew, after)) :
    after.Owns regions ∧ after.store = a.store ∧ after.limit = a.limit := by
  have hsound := h.sound.reserve hreserve
  obtain rfl | ⟨-, rfl⟩ := reserve_eq_ok hreserve
  · exact ⟨h, rfl, rfl⟩
  · refine ⟨⟨hsound, ?_⟩, rfl, rfl⟩
    rw [Blocks.liveBlocks_extend]
    exact h.live

theorem Owns.reserveOrKeep (h : a.Owns regions) (size : Nat) :
    (a.reserveOrKeep size).Owns regions ∧ (a.reserveOrKeep size).store = a.store ∧
      (a.reserveOrKeep size).limit = a.limit := by
  rw [Arena.reserveOrKeep]
  split
  · rename_i hreserve
    exact h.reserve hreserve
  · exact ⟨h, rfl, rfl⟩

/-- Moving a block only adds the new one. -/
theorem Owns.tryReallocate {addr size moved : Nat} (h : a.Owns regions)
    (hmove : a.tryReallocate addr size = .ok (moved, after)) :
    after.Owns ((moved, size) :: regions) ∧ Spares regions a after := by
  obtain ⟨old, fresh, -, hallocate, rfl⟩ := h.sound.tryReallocate_eq_ok hmove
  obtain ⟨howns, hstore, hlimit⟩ := h.allocate hallocate
  refine ⟨howns.withStore _, (spares_of_store_eq hlimit hstore regions).trans ?_⟩
  apply howns.spares_write (Nat.le_refl _)
  rw [ByteStore.length_read]
  exact Nat.add_le_add_left (Nat.min_le_right _ _) _

/-- Moving a block and then freeing the old one exchanges the two. -/
theorem Owns.relocate {addr old size moved : Nat} (h : a.Owns ((addr, old) :: regions))
    (hmove : a.tryReallocate addr size = .ok (moved, after)) :
    ∃ freed, after.free addr = .ok freed ∧ freed.Owns ((moved, size) :: regions) ∧
      Spares regions a freed := by
  obtain ⟨howns, hspares⟩ := h.tryReallocate hmove
  obtain ⟨freed, hfree, hfreed, hstore, hlimit⟩ := (howns.perm (List.Perm.swap _ _ _)).free
  refine ⟨freed, hfree, hfreed, ?_⟩
  exact (hspares.subset fun r hr => List.mem_cons_of_mem _ hr).trans
    (spares_of_store_eq hlimit hstore regions)

end BytecodeKernel.Arena
