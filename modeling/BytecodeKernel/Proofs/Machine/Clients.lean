import BytecodeKernel.Proofs.Machine.Stacks
import BytecodeKernel.Proofs.Memory.Partition
/-!
Clients that call the arena directly and hold the blocks they allocate. A client keeps to itself if
it writes only to free addresses and to its own blocks, and frees only these; then the blocks of
others stay live and keep their bytes.
-/

namespace BytecodeKernel.Arena

/-- None of these addresses lies in a live block, unless it is one of those held. -/
def Clear (a : Arena) (held : List (Nat × Nat)) (addr length : Nat) : Prop :=
  ∀ x, addr ≤ x → x < addr + length →
    ∀ b ∈ a.blocks.liveBlocks, b.1 ≤ x → x < b.1 + b.2 → b ∈ held

/-- The call writes to no block of others and frees none. A call that is refused does neither. -/
def Call.KeepsTo (a : Arena) (held : List (Nat × Nat)) : Call → Prop
  | .free addr => ∀ size, (addr, size) ∈ a.blocks.liveBlocks → (addr, size) ∈ held
  | .write addr bytes => a.InRange addr bytes.length → a.Clear held addr bytes.length
  | .setSigned width addr _ => a.InRange addr width → a.Clear held addr width
  | .setSlot addr _ => a.InRange addr slotSize → a.Clear held addr slotSize
  | .copy dst src length => a.InRange src length → a.InRange dst length → a.Clear held dst length
  | .concatCopy dst srcA srcB length =>
    a.InRange srcA length → a.InRange dst (2 * length) →
      a.Clear held dst length ∧ (a.InRange srcB length → a.Clear held (dst + length) length)
  | .allocate _ | .calloc .. | .tryReallocate .. | .reallocate .. | .reserve _ | .sizeOf _
  | .read .. | .getSigned .. | .getSlot _ => True

def holdMore (held : List (Nat × Nat)) (size : Nat) :
    Except MemoryError (Nat × Arena) → List (Nat × Nat)
  | .ok (addr, _) => (addr, size) :: held
  | .error _ => held

/-- What is held after the block at an address is given back. -/
def holdLess (a : Arena) (held : List (Nat × Nat)) (addr : Nat) : List (Nat × Nat) :=
  match a.sizeOf addr with
  | .ok size => held.erase (addr, size)
  | .error _ => held

/-- The blocks that are held after a call. -/
def Call.hold (a : Arena) (held : List (Nat × Nat)) : Call → List (Nat × Nat)
  | .allocate size => holdMore held size (a.allocate size)
  | .calloc size length => holdMore held size (a.calloc size length)
  | .tryReallocate addr size | .reallocate addr size =>
    holdMore held size (a.tryReallocate addr size)
  | .free addr => a.holdLess held addr
  | .write .. | .setSigned .. | .setSlot .. | .copy .. | .concatCopy .. | .reserve _ | .sizeOf _
  | .read .. | .getSigned .. | .getSlot _ => held

variable {a after : Arena} {held others : List (Nat × Nat)}

/-- A block that is held is no block of others. -/
theorem Owns.not_mem_others (h : a.Owns (held ++ others)) {b : Nat × Nat} (hb : b ∈ others) :
    b ∉ held := by
  intro hheld
  have hdisjoint := (List.pairwise_append.1 h.disjoint).2.2 b hheld b hb
  have hpos := h.pos (List.mem_append_right held hb)
  omega

/-- There is nothing else in a block. -/
theorem Owns.clear_head {r : Nat × Nat} {regions : List (Nat × Nat)} (h : a.Owns (r :: regions))
    (hr : r ∈ held) : a.Clear held r.1 r.2 := by
  intro x hle hlt b hb hbegin hend
  rcases List.mem_cons.1 (h.mem_iff.1 hb) with rfl | hmem
  · exact hr
  · have hdisjoint := h.disjoint_head b hmem
    omega

theorem Owns.spares_of_clear (h : a.Owns (held ++ others)) {addr : Nat} {bytes : List UInt8}
    (hclear : a.Clear held addr bytes.length) :
    Spares others a { a with store := a.store.write addr bytes } := by
  refine ⟨rfl, fun b hb x hlo hhi => ?_⟩
  rw [ByteStore.get_write, if_neg]
  rintro ⟨hle, hlt⟩
  have hlive := h.mem_iff.2 (List.mem_append_right held hb)
  exact h.not_mem_others hb (hclear x hle hlt b hlive hlo hhi)

theorem Owns.settle_write (h : a.Owns (held ++ others)) {addr : Nat} {bytes : List UInt8}
    (hclear : a.InRange addr bytes.length → a.Clear held addr bytes.length) :
    (a.settle (a.write addr bytes)).Owns (held ++ others) ∧
      Spares others a (a.settle (a.write addr bytes)) := by
  cases hwrite : a.write addr bytes with
  | error e => exact ⟨h, .refl _ _⟩
  | ok after =>
    obtain ⟨hrange, rfl⟩ := write_eq_ok hwrite
    exact ⟨h.withStore _, h.spares_of_clear (hclear hrange)⟩

theorem Owns.copy (h : a.Owns (held ++ others)) {dst src length : Nat}
    (hclear : a.InRange src length → a.InRange dst length → a.Clear held dst length)
    (hcopy : a.copy dst src length = .ok after) :
    after.Owns (held ++ others) ∧ Spares others a after := by
  obtain ⟨hsrc, hdst, rfl⟩ := copy_eq_ok hcopy
  refine ⟨h.withStore _, h.spares_of_clear ?_⟩
  rw [ByteStore.length_read]
  exact hclear hsrc hdst

/-- Both halves fit where the capped length of both fits, since no arena is that large. -/
theorem Sound.inRange_both (h : a.Sound) {dst length : Nat}
    (hrange : a.InRange dst (min (2 * length) (addressLimit - 1))) :
    a.InRange dst (2 * length) := by
  have hcapacity := h.capacity_le.trans h.limit_le
  obtain ⟨hnull, hend⟩ := hrange
  refine ⟨hnull, ?_⟩
  simp only [maxCapacity] at hcapacity
  have hlimit : 2 < addressLimit := by decide
  omega

theorem Owns.concatCopy (h : a.Owns (held ++ others)) {dst srcA srcB length : Nat}
    (hclear : a.InRange srcA length → a.InRange dst (2 * length) →
      a.Clear held dst length ∧ (a.InRange srcB length → a.Clear held (dst + length) length)) :
    (a.concatCopy dst srcA srcB length).2.Owns (held ++ others) ∧
      Spares others a (a.concatCopy dst srcA srcB length).2 := by
  unfold Arena.concatCopy
  simp only
  split
  · exact ⟨h, .refl _ _⟩
  · split
    · exact ⟨h, .refl _ _⟩
    · rename_i hrange
      have hboth := h.sound.inRange_both (not_not.1 hrange)
      split
      · exact ⟨h, .refl _ _⟩
      · rename_i first hfirst
        obtain ⟨howns, hspares⟩ := h.copy (fun hsrc _ => (hclear hsrc hboth).1) hfirst
        split
        · exact ⟨howns, hspares⟩
        · rename_i second hsecond
          -- The first copy leaves the blocks as they are, so the same addresses are clear.
          obtain ⟨hsrc, -, rfl⟩ := copy_eq_ok hfirst
          obtain ⟨howns', hspares'⟩ :=
            howns.copy (fun hsrc' _ => (hclear hsrc hboth).2 hsrc') hsecond
          exact ⟨howns', hspares.trans hspares'⟩

/-- A call that takes one block, however it fills it. -/
theorem Owns.settle_taken (h : a.Owns (held ++ others)) {size : Nat}
    {x : Except MemoryError (Nat × Arena)}
    (hx : ∀ addr after, x = .ok (addr, after) →
      after.Owns ((addr, size) :: (held ++ others)) ∧ Spares others a after) :
    (a.settle (x.map (·.2))).Owns (holdMore held size x ++ others) ∧
      Spares others a (a.settle (x.map (·.2))) := by
  cases x with
  | error e => exact ⟨h, .refl _ _⟩
  | ok result => exact hx result.1 result.2 rfl

theorem Owns.settle_tryReallocate (h : a.Owns (held ++ others)) (addr size : Nat) :
    (a.settle ((a.tryReallocate addr size).map (·.2))).Owns
        (holdMore held size (a.tryReallocate addr size) ++ others) ∧
      Spares others a (a.settle ((a.tryReallocate addr size).map (·.2))) := by
  refine h.settle_taken fun moved after hmove => ?_
  obtain ⟨howns, hspares⟩ := h.tryReallocate hmove
  exact ⟨howns, hspares.subset fun r hr => List.mem_append_right _ hr⟩

theorem Owns.settle_calloc (h : a.Owns (held ++ others)) (size length : Nat) :
    (a.settle ((a.calloc size length).map (·.2))).Owns
        (holdMore held size (a.calloc size length) ++ others) ∧
      Spares others a (a.settle ((a.calloc size length).map (·.2))) := by
  refine h.settle_taken fun addr after hcalloc => ?_
  obtain ⟨hle, fresh, hallocate, rfl⟩ := h.sound.calloc_eq_ok hcalloc
  obtain ⟨howns, hstore, hlimit⟩ := h.allocate hallocate
  refine ⟨howns.withStore _, (spares_of_store_eq hlimit hstore others).trans ?_⟩
  refine (howns.spares_write (Nat.le_refl _) ?_).subset fun r hr => List.mem_append_right _ hr
  rw [List.length_replicate]
  exact Nat.add_le_add_left hle _

theorem Owns.settle_free (h : a.Owns (held ++ others)) {addr : Nat}
    (hheld : ∀ size, (addr, size) ∈ a.blocks.liveBlocks → (addr, size) ∈ held) :
    (a.settle (a.free addr)).Owns (a.holdLess held addr ++ others) ∧
      Spares others a (a.settle (a.free addr)) := by
  rw [holdLess]
  split
  · rename_i size hsize
    have hmem := hheld size ((sizeOf_eq_ok_iff h.sound).1 hsize)
    have howns : a.Owns ((addr, size) :: (held.erase (addr, size) ++ others)) :=
      h.perm ((List.perm_cons_erase hmem).append_right others)
    obtain ⟨after, hfree, hafter, hstore, hlimit⟩ := howns.free
    rw [hfree]
    exact ⟨hafter, spares_of_store_eq hlimit hstore others⟩
  · rename_i hsize
    cases hfree : a.free addr with
    | error e => exact ⟨h, .refl _ _⟩
    | ok after =>
      -- What can be freed has a size, so there is no such case.
      obtain ⟨size, rest, hperm, -⟩ := h.of_free hfree
      have hmem := h.mem_iff.2 (hperm.mem_iff.2 List.mem_cons_self)
      rw [(sizeOf_eq_ok_iff h.sound).2 hmem] at hsize
      contradiction

/-- A client that keeps to itself leaves the blocks of others alone, whatever it calls. -/
theorem Owns.perform (h : a.Owns (held ++ others)) {call : Call} (hkeeps : call.KeepsTo a held) :
    (a.perform call).Owns (call.hold a held ++ others) ∧ Spares others a (a.perform call) := by
  cases call with
  | allocate size =>
    refine h.settle_taken fun addr after hallocate => ?_
    obtain ⟨howns, hstore, hlimit⟩ := h.allocate hallocate
    exact ⟨howns, spares_of_store_eq hlimit hstore others⟩
  | calloc size length => exact h.settle_calloc size length
  | tryReallocate addr size => exact h.settle_tryReallocate addr size
  | reallocate addr size =>
    have hmove := h.settle_tryReallocate addr size
    simp only [Arena.perform, Arena.reallocate, Call.hold]
    cases hres : a.tryReallocate addr size <;> rw [hres] at hmove <;> exact hmove
  | free addr => exact h.settle_free hkeeps
  | reserve size =>
    show (a.settle ((a.reserve size).map (·.2))).Owns _ ∧ _
    cases hres : a.reserve size with
    | error e => exact ⟨h, by simp only [Arena.perform, hres]; exact .refl _ _⟩
    | ok result =>
      obtain ⟨howns, hstore, hlimit⟩ := h.reserve hres
      simp only [Arena.perform, hres]
      exact ⟨howns, spares_of_store_eq hlimit hstore others⟩
  | write addr bytes => exact h.settle_write hkeeps
  | setSigned width addr v =>
    exact h.settle_write (by rwa [BigEndian.length_encodeSigned])
  | setSlot addr v => exact h.settle_write (by rwa [Stack.length_slotBytes])
  | copy dst src length =>
    show (a.settle (a.copy dst src length)).Owns _ ∧ Spares others a (a.settle _)
    cases hcopy : a.copy dst src length with
    | error e => exact ⟨h, .refl _ _⟩
    | ok after => exact h.copy hkeeps hcopy
  | concatCopy dst srcA srcB length => exact h.concatCopy hkeeps
  | sizeOf | read | getSigned | getSlot => exact ⟨h, .refl _ _⟩

end BytecodeKernel.Arena
