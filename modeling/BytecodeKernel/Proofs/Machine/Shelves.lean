import BytecodeKernel.Proofs.Machine.Contents
import BytecodeKernel.Proofs.Machine.Contexts
import BytecodeKernel.Proofs.Memory.Room
import Mathlib.Logic.Function.Basic
/-!
A heap as a shelf of texts. A program puts texts on it and reads whole ones back; where they stand
is decided by the block table alone, which grows at its end when no free block is large enough. What
the bytes of the region do, and where in the arena it lies, is not seen in the texts.
-/

namespace BytecodeKernel

/-! ### Tables -/

namespace Blocks

/-- Takes a block, from a table that grows by so much when no free block holds it. -/
def obtain (b : Blocks) (size : Nat) : Except MemoryError (Nat × Blocks) :=
  (if size ≤ b.largestFree then b else b.extend size).allocate size

theorem isShortage_of_allocate {b : Blocks} {size : Nat} {e : MemoryError} (hsize : size ≠ 0)
    (h : b.allocate size = .error e) : e.IsShortage := by
  rw [allocate, if_neg hsize] at h
  split at h
  · contradiction
  · obtain rfl := Except.error.inj h
    trivial

variable {b after : Blocks} {size addr : Nat}

/-- The live blocks are those from before, with the new one somewhere between them. -/
theorem liveBlocks_obtain (h : b.obtain size = .ok (addr, after)) :
    ∃ front back, b.liveBlocks = front ++ back ∧
      after.liveBlocks = front ++ (addr, size) :: back := by
  have hextended : (if size ≤ b.largestFree then b else b.extend size).liveBlocks =
      b.liveBlocks := by
    split
    · rfl
    · exact liveBlocks_extend b size
  obtain ⟨front, back, hbefore, hafter⟩ := liveBlocks_of_allocate h
  exact ⟨front, back, hextended.symm.trans hbefore, hafter⟩

theorem mem_liveBlocks_obtain (h : b.obtain size = .ok (addr, after)) {block : Nat × Nat} :
    block ∈ after.liveBlocks ↔ block = (addr, size) ∨ block ∈ b.liveBlocks := by
  obtain ⟨front, back, hbefore, hafter⟩ := liveBlocks_obtain h
  rw [hbefore, hafter, List.perm_middle.mem_iff, List.mem_cons]

/-- The new block meets none of the others. -/
theorem disjoint_obtain (h : b.obtain size = .ok (addr, after)) {block : Nat × Nat}
    (hblock : block ∈ b.liveBlocks) :
    addr + size ≤ block.1 ∨ block.1 + block.2 ≤ addr := by
  obtain ⟨front, back, hbefore, hafter⟩ := liveBlocks_obtain h
  have hpairwise := Segment.liveBlocks_pairwise after.origin after.segments
  rw [show Segment.liveBlocks after.origin after.segments = after.liveBlocks from rfl, hafter]
    at hpairwise
  obtain ⟨-, hback, hfront⟩ := List.pairwise_append.1 hpairwise
  rcases List.mem_append.1 (hbefore ▸ hblock) with hmem | hmem
  · exact .inr (hfront block hmem _ List.mem_cons_self)
  · exact .inl ((List.pairwise_cons.1 hback).1 block hmem)

/-- No other block starts where the new one does. -/
theorem sizeOf?_obtain (hb : Segment.Tidy b.segments) (hafter : Segment.Tidy after.segments)
    (h : b.obtain size = .ok (addr, after)) (x : Nat) :
    after.sizeOf? x = if x = addr then some size else b.sizeOf? x := by
  refine Option.ext fun n => ?_
  rw [sizeOf?_eq_some_iff hafter, mem_liveBlocks_obtain h, Prod.mk.injEq]
  split
  · rename_i hx
    subst hx
    constructor
    · rintro (⟨-, rfl⟩ | hmem)
      · rfl
      · -- Two blocks with one start would meet.
        obtain ⟨hsize, -⟩ := allocate_eq_ok h
        have hpos := Segment.liveBlocks_pos hb hmem
        have hdisjoint := disjoint_obtain h hmem
        simp only at hpos hdisjoint
        omega
    · intro hn
      exact .inl ⟨rfl, (Option.some.inj hn).symm⟩
  · rename_i hx
    rw [sizeOf?_eq_some_iff hb]
    exact ⟨fun hmem => hmem.resolve_left fun heq => hx heq.1, .inr⟩

end Blocks

/-! ### Heaps -/

namespace Heap

variable {others regions : List (Nat × Nat)} {h : Heap} {a b : Arena} {size addr : Nat}

/-- A live block lies in the region. -/
theorem Tiled.block_le (ht : h.Tiled) {length : Nat}
    (hblock : (addr, length) ∈ h.blocks.liveBlocks) :
    addr ≠ 0 ∧ addr - 1 + length ≤ h.size := by
  have hstart := Segment.le_start_of_mem_liveBlocks hblock
  have hend := Segment.end_le_of_mem_liveBlocks hblock
  have hextent : Segment.extent h.blocks.segments = h.size := ht.extent
  rw [ht.origin] at hstart hend
  simp only at hstart hend
  exact ⟨by omega, by omega⟩

theorem Tiled.locate? (ht : h.Tiled) (ha : a.Owns regions) (hr : h.region ∈ regions) {length : Nat}
    (hblock : (addr, length) ∈ h.blocks.liveBlocks) :
    h.locate? addr length = some (h.base + (addr - 1)) := by
  obtain ⟨hnull, hend⟩ := ht.block_le hblock
  rw [Heap.locate?, if_neg (by omega)]
  refine ha.add? hr ?_
  show addr - 1 ≤ h.size
  omega

/-- A live block is read as a whole, and nothing else is. -/
theorem readBlock_eq (ht : h.Tiled) (ha : a.Owns regions) (hr : h.region ∈ regions) (addr : Nat) :
    h.readBlock a addr = match h.blocks.sizeOf? addr with
      | some length => .ok (a.store.read (h.base + (addr - 1)) length)
      | none => .error (.invalidPointer addr) := by
  rw [readBlock, sizeOf]
  cases hsize : h.blocks.sizeOf? addr with
  | none => rfl
  | some length =>
    have hblock := (Blocks.sizeOf?_eq_some_iff ht.tidy).1 hsize
    obtain ⟨hnull, hend⟩ := ht.block_le hblock
    simp only [bind, Except.bind, ht.locate? ha hr hblock]
    refine ha.read hr (Nat.le_add_right _ _) ?_
    show h.base + (addr - 1) + length ≤ h.base + h.size
    omega

/-- What a heap is like that has taken a block: its table has grown as it had to, and the bytes of
the old region are where they were in it. -/
structure Taken (others : List (Nat × Nat)) (h : Heap) (a : Arena) (size addr : Nat)
    (t : Heap × Arena) : Prop where
  home : Home others a t
  tiled : t.1.Tiled
  obtained : h.blocks.obtain size = .ok (addr, t.1.blocks)
  size_le : h.size ≤ t.1.size
  bytes : ∀ i < h.size, t.2.store.get (t.1.base + i) = a.store.get (h.base + i)

/-- A growth that is not refused moves the region with its bytes to a larger one. A growth that is
refused changes nothing at all, for room that was reserved is there. -/
theorem reserve_cases (ht : h.Tiled) (ha : a.Owns (h.region :: others)) (size : Nat) :
    (∃ t, reserve size (h, a) = .ok () t ∧ Home others a t ∧ t.1.Tiled ∧ h.size ≤ t.1.size ∧
        t.1.blocks = (if size ≤ h.blocks.largestFree then h.blocks else h.blocks.extend size) ∧
        ∀ i < h.size, t.2.store.get (t.1.base + i) = a.store.get (h.base + i)) ∨
      h.blocks.largestFree < size ∧ reserve size (h, a) = .ok () (h, a) := by
  rw [reserve]
  simp only
  by_cases hfits : size ≤ h.blocks.largestFree
  · rw [if_pos (.inl hfits)]
    exact .inl ⟨_, rfl, ⟨ha, .refl _ _⟩, ht, Nat.le_refl _, (if_pos hfits).symm, fun _ _ => rfl⟩
  by_cases hlarge : addressLimit ≤ h.size + size
  · rw [if_pos (.inr hlarge)]
    exact .inr ⟨Nat.not_le.1 hfits, rfl⟩
  rw [if_neg (by tauto)]
  obtain ⟨howns, hstore, hlimit⟩ := ha.reserveOrKeep (h.size + size)
  cases hmove : (a.reserveOrKeep (h.size + size)).tryReallocate h.base (h.size + size) with
  | error e =>
    have hkept := ha.reserveOrKeep_of_tryReallocate (by omega) hmove
    exact .inr ⟨Nat.not_le.1 hfits, by rw [hkept]⟩
  | ok result =>
    obtain ⟨freed, hfree, hfreed, hspares⟩ := howns.relocate hmove
    have hdiscard : result.2.discard h.base = freed := by
      rw [Arena.discard, hfree]
    have hsame : freed.store = result.2.store := by
      obtain ⟨blocks, -, rfl⟩ := Arena.free_eq_ok hfree
      rfl
    refine .inl ⟨_, rfl, ⟨hdiscard ▸ hfreed, ?_⟩, ht.extend _ _, Nat.le_add_right _ _,
      (if_neg hfits).symm, fun i hi => ?_⟩
    · rw [hdiscard]
      exact (Arena.spares_of_store_eq hlimit hstore _).trans hspares
    · have hget := howns.get_moved List.mem_cons_self hmove hi (Nat.lt_add_right _ hi)
      simp only [hdiscard, hsame]
      rw [hget, hstore]

/-- A block is taken, or there is no room for it. -/
theorem ends_malloc (ht : h.Tiled) (ha : a.Owns (h.region :: others)) (hsize : size ≠ 0) :
    Ends (malloc size (h, a)) (Taken others h a size) (fun e _ => e.IsShortage) := by
  rw [malloc]
  rcases reserve_cases ht ha size with ⟨⟨grown, b⟩, hreserve, hhome, htiled, hle, hblocks, hbytes⟩ |
    ⟨hlarge, hreserve⟩
  · refine Ends.of_ok hreserve (TenantM.ends_self ?_)
    cases hallocate : grown.blocks.allocate size with
    | error e => exact Blocks.isShortage_of_allocate hsize hallocate
    | ok result =>
      refine ⟨hhome.withBlocks _, htiled.allocate hallocate, ?_, hle, hbytes⟩
      rw [Blocks.obtain, ← hblocks]
      exact hallocate
  · refine Ends.of_ok hreserve (TenantM.ends_self ?_)
    rw [Blocks.allocate_of_largestFree_lt hlarge]
    exact trivial

/-- The block that was taken is filled with bytes that someone else owns, and the other blocks read
as before. -/
theorem Taken.copyIn {t : Heap × Arena} (h' : Taken others h a size addr t) (ht : h.Tiled)
    (ha : a.Owns (h.region :: others)) {r : Nat × Nat} (hr : r ∈ others) {src : Nat}
    (hle : r.1 ≤ src) (hend : src + size ≤ r.1 + r.2) :
    ∃ b, t.1.copyIn t.2 addr src size = .ok b ∧ Home others a (t.1, b) ∧
      ∀ x, t.1.readBlock b x =
        if x = addr then .ok (a.store.read src size) else h.readBlock a x := by
  obtain ⟨grown, c⟩ := t
  have hblock : (addr, size) ∈ grown.blocks.liveBlocks :=
    (Blocks.mem_liveBlocks_obtain h'.obtained).2 (.inl rfl)
  have howns := h'.home.owns
  obtain ⟨hnull, hfits⟩ : addr ≠ 0 ∧ addr - 1 + size ≤ grown.size := h'.tiled.block_le hblock
  have hread : c.store.read src size = a.store.read src size := by
    refine ByteStore.read_congr fun x hx hx' => ?_
    exact h'.home.spares.bytes r hr x (by omega) (by omega)
  have hcopy : grown.copyIn c addr src size = .ok { c with
      store := c.store.write (grown.base + (addr - 1)) (a.store.read src size) } := by
    have hdst : c.InRange (grown.base + (addr - 1)) size := by
      refine howns.inRange List.mem_cons_self (Nat.le_add_right _ _) ?_
      show grown.base + (addr - 1) + size ≤ grown.base + grown.size
      omega
    simp only [Heap.copyIn, h'.tiled.locate? howns List.mem_cons_self hblock, Arena.copy,
      howns.read (List.mem_cons_of_mem _ hr) hle hend, bind, Except.bind, if_pos hdst, hread]
    rfl
  have hhome : Home others a (grown, _) := h'.home.copyIn hcopy
  refine ⟨_, hcopy, hhome, fun x => ?_⟩
  rw [readBlock_eq h'.tiled hhome.owns List.mem_cons_self, readBlock_eq ht ha List.mem_cons_self,
    Blocks.sizeOf?_obtain ht.tidy h'.tiled.tidy h'.obtained]
  by_cases hx : x = addr
  · subst hx
    simp only [if_true]
    have hwritten := ByteStore.read_write c.store (grown.base + (x - 1)) (a.store.read src size)
    rw [ByteStore.length_read] at hwritten
    exact congrArg _ hwritten
  · simp only [if_neg hx]
    cases hsize : h.blocks.sizeOf? x with
    | none => rfl
    | some length =>
      -- The other block lies in the old region, and apart from the new one.
      have hother := (Blocks.sizeOf?_eq_some_iff ht.tidy).1 hsize
      have hdisjoint := Blocks.disjoint_obtain h'.obtained hother
      obtain ⟨hnull', hfits'⟩ := ht.block_le hother
      refine congrArg _ (List.ext_getElem (by simp) fun i hi hi' => ?_)
      have hlt : i < length := by simpa using hi'
      rw [ByteStore.getElem_read, ByteStore.getElem_read, ByteStore.get_write, if_neg]
      · have hbytes := h'.bytes (x - 1 + i) (by omega)
        simpa only [Nat.add_assoc] using hbytes
      · rw [ByteStore.length_read]
        simp only at hdisjoint
        omega

end Heap

end BytecodeKernel
