import BytecodeKernel.Proofs.Memory.Soundness
import BytecodeKernel.Proofs.Memory.Tables
/-!
Histories of an arena: any calls in any order, each of which may fail. After every history the live
blocks and the free ranges cut the addresses up to the capacity into pieces that are not empty, and
no two free pieces touch.

Beside the arena runs a ledger, which keeps the two maps of `Tables` and computes in 32 bits. It has
no value where a sum or difference would wrap, so that it keeps up with every history says that none
ever does.
-/

namespace BytecodeKernel

namespace Arena

/-- A call that a client can make. -/
inductive Call where
  | allocate (size : Nat)
  | calloc (size length : Nat)
  | tryReallocate (addr size : Nat)
  | reallocate (addr size : Nat)
  | free (addr : Nat)
  | reserve (size : Nat)
  | sizeOf (addr : Nat)
  | read (addr length : Nat)
  | write (addr : Nat) (bytes : List UInt8)
  | getSigned (width addr : Nat)
  | setSigned (width addr : Nat) (v : Int)
  | getSlot (addr : Nat)
  | setSlot (addr : Nat) (v : Int64)
  | copy (dst src length : Nat)
  | concatCopy (dst srcA srcB length : Nat)

/-- What a call leaves behind that either succeeds or changes nothing. -/
def settle (a : Arena) : Except MemoryError Arena → Arena
  | .ok after => after
  | .error _ => a

/-- The arena after a call, whether it succeeded or not. -/
def perform (a : Arena) : Call → Arena
  | .allocate size => a.settle ((a.allocate size).map (·.2))
  | .calloc size length => a.settle ((a.calloc size length).map (·.2))
  | .tryReallocate addr size => a.settle ((a.tryReallocate addr size).map (·.2))
  | .reallocate addr size => (a.reallocate addr size).2
  | .free addr => a.settle (a.free addr)
  | .reserve size => a.settle ((a.reserve size).map (·.2))
  | .write addr bytes => a.settle (a.write addr bytes)
  | .setSigned width addr v => a.settle (a.setSigned width addr v)
  | .setSlot addr v => a.settle (a.setSlot addr v)
  | .copy dst src length => a.settle (a.copy dst src length)
  | .concatCopy dst srcA srcB length => (a.concatCopy dst srcA srcB length).2
  | .sizeOf _ | .read .. | .getSigned .. | .getSlot _ => a

def performAll (a : Arena) (calls : List Call) : Arena :=
  calls.foldl perform a

/-- Live blocks and free ranges cut the addresses from one to the capacity into pieces. -/
structure Partitioned (a : Arena) : Prop where
  live_pos : ∀ b ∈ a.blocks.liveBlocks, 0 < b.2
  free_pos : ∀ r ∈ a.blocks.freeRanges, r.1 < r.2
  live_disjoint : a.blocks.liveBlocks.Pairwise fun b c => b.1 + b.2 ≤ c.1
  /-- Between two free ranges there is at least one address. -/
  free_apart : a.blocks.freeRanges.Pairwise fun r s => r.2 < s.1
  live_disjoint_free : ∀ b ∈ a.blocks.liveBlocks, ∀ r ∈ a.blocks.freeRanges,
    b.1 + b.2 ≤ r.1 ∨ r.2 ≤ b.1
  covered : ∀ x, (∃ b ∈ a.blocks.liveBlocks, b.1 ≤ x ∧ x < b.1 + b.2) ∨
      (∃ r ∈ a.blocks.freeRanges, r.1 ≤ x ∧ x < r.2) ↔ 1 ≤ x ∧ x ≤ a.capacity

variable {a after : Arena}

theorem Sound.partitioned (h : a.Sound) : a.Partitioned where
  live_pos _ hb := Segment.liveBlocks_pos h.tidy hb
  free_pos _ hr := Segment.freeRanges_pos h.tidy hr
  live_disjoint := Segment.liveBlocks_pairwise _ _
  free_apart := Segment.freeRanges_pairwise _ h.tidy
  live_disjoint_free _ hb _ hr := Segment.live_disjoint_free hb hr
  covered x := by
    have hextent : Segment.extent a.blocks.segments = a.capacity := h.extent
    rw [Blocks.liveBlocks, Blocks.freeRanges, Segment.covered_iff, h.origin, hextent]
    omega

/-! ### Calls that only touch bytes -/

/-- Everything but the bytes is the same. -/
def SameTables (a b : Arena) : Prop :=
  b.capacity = a.capacity ∧ b.limit = a.limit ∧ b.blocks = a.blocks

theorem SameTables.refl (a : Arena) : SameTables a a :=
  ⟨rfl, rfl, rfl⟩

theorem SameTables.trans {b c : Arena} (hab : SameTables a b) (hbc : SameTables b c) :
    SameTables a c :=
  ⟨hbc.1.trans hab.1, hbc.2.1.trans hab.2.1, hbc.2.2.trans hab.2.2⟩

theorem SameTables.sound {b : Arena} (h : SameTables a b) (ha : a.Sound) : b.Sound := by
  obtain ⟨hcapacity, hlimit, hblocks⟩ := h
  have hstore : b = { a with store := b.store } := by
    obtain ⟨_, _, _, _⟩ := b
    simp_all
  rw [hstore]
  exact ha.withStore b.store

theorem sameTables_settle_write (a : Arena) (addr : Nat) (bytes : List UInt8) :
    SameTables a (a.settle (a.write addr bytes)) := by
  cases hwrite : a.write addr bytes with
  | error e => exact .refl a
  | ok after =>
    obtain ⟨-, rfl⟩ := write_eq_ok hwrite
    exact ⟨rfl, rfl, rfl⟩

theorem sameTables_of_copy {dst src length : Nat} (h : a.copy dst src length = .ok after) :
    SameTables a after := by
  obtain ⟨-, -, rfl⟩ := copy_eq_ok h
  exact ⟨rfl, rfl, rfl⟩

theorem sameTables_settle_copy (a : Arena) (dst src length : Nat) :
    SameTables a (a.settle (a.copy dst src length)) := by
  cases hcopy : a.copy dst src length with
  | error e => exact .refl a
  | ok after => exact sameTables_of_copy hcopy

/-- Also where only the first of the two copies was made. -/
theorem sameTables_concatCopy (a : Arena) (dst srcA srcB length : Nat) :
    SameTables a (a.concatCopy dst srcA srcB length).2 := by
  unfold concatCopy
  simp only
  split
  · exact .refl a
  · split
    · exact .refl a
    · split
      · exact .refl a
      · rename_i first hfirst
        have htables := sameTables_of_copy hfirst
        split
        · exact htables
        · rename_i second hsecond
          exact htables.trans (sameTables_of_copy hsecond)

end Arena

/-! ### The ledger -/

/-- The numbers that an arena keeps about itself, without its bytes. -/
structure Ledger where
  capacity : Nat
  limit : Nat
  tables : Tables

namespace Ledger

open Arena

/-- The ledger of an empty arena. Like the arena's own bounds, its bounds are drawn into range. -/
def open? (capacity limit : Nat) : Option Ledger := do
  let capacity := min capacity maxCapacity
  let stop ← Address.add? capacity 1
  return {
    capacity
    limit := max capacity (min limit maxCapacity)
    tables := { allocated := [], available := if 1 < stop then [(1, stop)] else [] } }

def allocate? (l : Ledger) (size : Nat) : Option Ledger := do
  match ← l.tables.allocate? size with
  | .ok (_, tables) => return { l with tables }
  | .error _ => return l

def release? (l : Ledger) (addr : Nat) : Option Ledger := do
  match ← l.tables.release? addr with
  | .ok tables => return { l with tables }
  | .error _ => return l

/-- Only the comparison with the limit is made in 64 bits. -/
def reserve? (l : Ledger) (size : Nat) : Option Ledger := do
  let largest ← Tables.largest? l.tables.available
  if size ≤ largest then return l
  if l.limit < l.capacity + size then return l
  let capacity ← Address.add? l.capacity size
  let start ← Address.add? l.capacity 1
  let stop ← Address.add? capacity 1
  return { l with capacity, tables := l.tables.extend start stop }

/-- A block that is to be moved must be live; then moving it is allocating another. -/
def reallocate? (l : Ledger) (addr size : Nat) : Option Ledger :=
  match Tables.lookup? addr l.tables.allocated with
  | some _ => l.allocate? size
  | none => some l

def perform? (l : Ledger) : Call → Option Ledger
  | .allocate size => l.allocate? size
  | .calloc size length => if size < length then some l else l.allocate? size
  | .tryReallocate addr size | .reallocate addr size => l.reallocate? addr size
  | .free addr => l.release? addr
  | .reserve size => l.reserve? size
  | .sizeOf _ | .read .. | .write .. | .getSigned .. | .setSigned .. | .getSlot _ | .setSlot ..
  | .copy .. | .concatCopy .. => some l

def performAll? (l : Ledger) (calls : List Call) : Option Ledger :=
  calls.foldlM perform? l

def ofArena (a : Arena) : Ledger :=
  ⟨a.capacity, a.limit, .ofBlocks a.blocks⟩

variable {a after : Arena}

theorem ofArena_congr {b : Arena} (h : SameTables a b) : ofArena b = ofArena a := by
  obtain ⟨hcapacity, hlimit, hblocks⟩ := h
  rw [ofArena, ofArena, hcapacity, hlimit, hblocks]

theorem ofArena_withLimit (capacity limit : Nat) :
    open? capacity limit = some (ofArena (withLimit capacity limit)) := by
  have hle : min capacity maxCapacity ≤ maxCapacity := Nat.min_le_right _ _
  have hstop : min capacity maxCapacity + 1 < addressLimit := by
    simp only [maxCapacity, addressLimit] at hle ⊢
    omega
  rw [open?]
  simp only [Address.add?, if_pos hstop, Option.bind_eq_bind, Option.bind_some, Option.pure_def]
  by_cases hzero : min capacity maxCapacity = 0
  · simp [ofArena, withLimit, Tables.ofBlocks, Blocks.liveBlocks, Blocks.freeRanges, Blocks.ofSize,
      Segment.liveBlocks, Segment.freeRanges, hzero]
  · have hlt : 1 < min capacity maxCapacity + 1 := by omega
    simp [ofArena, withLimit, Tables.ofBlocks, Blocks.liveBlocks, Blocks.freeRanges, Blocks.ofSize,
      Segment.liveBlocks, Segment.freeRanges, hzero, hlt, Nat.add_comm]

theorem allocate?_ofArena (h : a.Sound) (size : Nat) :
    (ofArena a).allocate? size = some (ofArena (a.settle ((a.allocate size).map (·.2)))) := by
  have htables := Tables.allocate?_ofBlocks h.fits size
  change (ofArena a).tables.allocate? size = _ at htables
  rw [allocate?, htables, Arena.allocate]
  cases a.blocks.allocate size <;> rfl

theorem release?_ofArena (h : a.Sound) (addr : Nat) :
    (ofArena a).release? addr = some (ofArena (a.settle (a.free addr))) := by
  have htables := Tables.release?_ofBlocks h.fits addr
  change (ofArena a).tables.release? addr = _ at htables
  rw [release?, htables, Arena.free]
  cases a.blocks.release addr <;> rfl

theorem calloc?_ofArena (h : a.Sound) {size length : Nat} (hle : length ≤ size) :
    (ofArena a).allocate? size
      = some (ofArena (a.settle ((a.calloc size length).map (·.2)))) := by
  rw [allocate?_ofArena h, h.calloc_eq hle]
  cases a.allocate size <;> rfl

theorem reallocate?_ofArena (h : a.Sound) (addr size : Nat) :
    (ofArena a).reallocate? addr size
      = some (ofArena (a.settle ((a.tryReallocate addr size).map (·.2)))) := by
  rw [reallocate?]
  cases hold : a.sizeOf addr with
  | ok old =>
    have hmem := (sizeOf_eq_ok_iff h).1 hold
    obtain ⟨value, hvalue⟩ := Tables.lookup?_isSome_of_mem hmem
    change Tables.lookup? addr (ofArena a).tables.allocated = _ at hvalue
    rw [hvalue, h.tryReallocate_eq hmem]
    simp only
    rw [allocate?_ofArena h]
    cases a.allocate size <;> rfl
  | error e =>
    have hnone : Tables.lookup? addr (ofArena a).tables.allocated = none := by
      refine Tables.lookup?_eq_none fun b hb => ?_
      rintro rfl
      rw [(sizeOf_eq_ok_iff h).2 hb] at hold
      contradiction
    rw [hnone, Arena.tryReallocate, hold]
    rfl

theorem reserve?_ofArena (h : a.Sound) (size : Nat) :
    (ofArena a).reserve? size = some (ofArena (a.settle ((a.reserve size).map (·.2)))) := by
  have hlargest : Tables.largest? (ofArena a).tables.available = some a.blocks.largestFree :=
    Tables.largest?_ofBlocks a.blocks
  rw [reserve?, hlargest, Arena.reserve]
  simp only [Option.bind_eq_bind, Option.bind_some, Option.pure_def]
  split
  · rfl
  · show (if a.limit < a.capacity + size then _ else _) = _
    split
    · rfl
    · -- The limit leaves room for the end behind the last address.
      rename_i hlimit
      have hle := h.limit_le
      have hgrown : a.capacity + size + 1 < addressLimit := by
        simp only [maxCapacity, addressLimit] at hle ⊢
        omega
      have hcapacity : Address.add? a.capacity size = some (a.capacity + size) :=
        if_pos (by omega)
      have hstart : Address.add? a.capacity 1 = some (a.capacity + 1) := if_pos (by omega)
      have hstop : Address.add? (a.capacity + size) 1 = some (a.capacity + size + 1) :=
        if_pos hgrown
      have hextend := Tables.extend_ofBlocks h.fits size
      rw [h.origin, h.extent, Nat.add_comm 1, Nat.add_right_comm] at hextend
      simp only [ofArena, hcapacity, hstart, hstop, hextend, Option.bind_some]
      rfl

/-- A step of the ledger has a value, and follows the arena. -/
theorem perform?_ofArena (h : a.Sound) (call : Call) :
    (ofArena a).perform? call = some (ofArena (a.perform call)) := by
  cases call with
  | allocate size => exact allocate?_ofArena h size
  | calloc size length =>
    simp only [perform?, perform]
    split
    · rename_i hlt
      rw [calloc_of_lt a hlt]
      rfl
    · rename_i hge
      exact calloc?_ofArena h (Nat.not_lt.1 hge)
  | tryReallocate addr size => exact reallocate?_ofArena h addr size
  | reallocate addr size =>
    have hmove := reallocate?_ofArena h addr size
    simp only [perform?, perform, Arena.reallocate, hmove]
    cases a.tryReallocate addr size <;> rfl
  | free addr => exact release?_ofArena h addr
  | reserve size => exact reserve?_ofArena h size
  | write addr bytes =>
    exact congrArg some (ofArena_congr (sameTables_settle_write a addr bytes)).symm
  | setSigned width addr v =>
    exact congrArg some (ofArena_congr (sameTables_settle_write a addr _)).symm
  | setSlot addr v => exact congrArg some (ofArena_congr (sameTables_settle_write a addr _)).symm
  | copy dst src length =>
    exact congrArg some (ofArena_congr (sameTables_settle_copy a dst src length)).symm
  | concatCopy dst srcA srcB length =>
    exact congrArg some (ofArena_congr (sameTables_concatCopy a dst srcA srcB length)).symm
  | sizeOf | read | getSigned | getSlot => rfl

end Ledger

/-! ### Histories -/

namespace Arena

variable {a : Arena}

/-- What one call keeps: the invariant and the limit; and the capacity does not shrink. -/
structure Grown (a b : Arena) : Prop where
  sound : b.Sound
  limit : b.limit = a.limit
  capacity : a.capacity ≤ b.capacity

theorem Sound.grown (h : a.Sound) : Grown a a :=
  ⟨h, rfl, Nat.le_refl _⟩

theorem SameTables.grown {b : Arena} (h : SameTables a b) (ha : a.Sound) : Grown a b :=
  ⟨h.sound ha, h.2.1, Nat.le_of_eq h.1.symm⟩

theorem Grown.trans {b c : Arena} (hab : Grown a b) (hbc : Grown b c) : Grown a c :=
  ⟨hbc.sound, hbc.limit.trans hab.limit, hab.capacity.trans hbc.capacity⟩

theorem grown_settle {x : Except MemoryError Arena} (h : a.Sound)
    (hx : ∀ after, x = .ok after → Grown a after) : Grown a (a.settle x) := by
  cases x with
  | error e => exact h.grown
  | ok after => exact hx after rfl

theorem grown_of_allocate {after : Arena} {size addr : Nat} (h : a.Sound)
    (hallocate : a.allocate size = .ok (addr, after)) : Grown a after := by
  obtain ⟨blocks, -, rfl⟩ := allocate_eq_ok hallocate
  exact ⟨h.allocate hallocate, rfl, Nat.le_refl _⟩

theorem Grown.withStore {b : Arena} (h : Grown a b) (store : ByteStore) :
    Grown a { b with store } :=
  ⟨h.sound.withStore store, h.limit, h.capacity⟩

theorem grown_of_calloc {after : Arena} {size length addr : Nat} (h : a.Sound)
    (hcalloc : a.calloc size length = .ok (addr, after)) : Grown a after := by
  obtain ⟨-, fresh, hallocate, rfl⟩ := h.calloc_eq_ok hcalloc
  exact (grown_of_allocate h hallocate).withStore _

theorem grown_of_tryReallocate {after : Arena} {addr size moved : Nat} (h : a.Sound)
    (hmove : a.tryReallocate addr size = .ok (moved, after)) : Grown a after := by
  obtain ⟨old, fresh, -, hallocate, rfl⟩ := h.tryReallocate_eq_ok hmove
  exact (grown_of_allocate h hallocate).withStore _

theorem grown_of_free {after : Arena} {addr : Nat} (h : a.Sound)
    (hfree : a.free addr = .ok after) : Grown a after := by
  obtain ⟨blocks, -, rfl⟩ := free_eq_ok hfree
  exact ⟨h.free hfree, rfl, Nat.le_refl _⟩

theorem grown_of_reserve {after : Arena} {size : Nat} {grew : Bool} (h : a.Sound)
    (hreserve : a.reserve size = .ok (grew, after)) : Grown a after := by
  have hsound := h.reserve hreserve
  obtain rfl | ⟨-, rfl⟩ := reserve_eq_ok hreserve
  · exact h.grown
  · exact ⟨hsound, rfl, Nat.le_add_right _ _⟩

theorem grown_settle_map {α : Type} {x : Except MemoryError (α × Arena)} (h : a.Sound)
    (hx : ∀ v after, x = .ok (v, after) → Grown a after) : Grown a (a.settle (x.map (·.2))) := by
  refine grown_settle h fun after hafter => ?_
  obtain ⟨⟨v, reached⟩, hx', rfl⟩ := ok_of_map hafter
  exact hx v reached hx'

theorem grown_perform (h : a.Sound) (call : Call) : Grown a (a.perform call) := by
  cases call with
  | allocate size => exact grown_settle_map h fun _ _ => grown_of_allocate h
  | calloc size length => exact grown_settle_map h fun _ _ => grown_of_calloc h
  | tryReallocate addr size => exact grown_settle_map h fun _ _ => grown_of_tryReallocate h
  | reallocate addr size =>
    simp only [perform, Arena.reallocate]
    cases hmove : a.tryReallocate addr size with
    | error e => exact h.grown
    | ok result => exact grown_of_tryReallocate h hmove
  | free addr => exact grown_settle h fun _ => grown_of_free h
  | reserve size => exact grown_settle_map h fun _ _ => grown_of_reserve h
  | write addr bytes => exact (sameTables_settle_write a addr bytes).grown h
  | setSigned width addr v => exact (sameTables_settle_write a addr _).grown h
  | setSlot addr v => exact (sameTables_settle_write a addr _).grown h
  | copy dst src length => exact (sameTables_settle_copy a dst src length).grown h
  | concatCopy dst srcA srcB length => exact (sameTables_concatCopy a dst srcA srcB length).grown h
  | sizeOf | read | getSigned | getSlot => exact h.grown

theorem grown_performAll (h : a.Sound) (calls : List Call) : Grown a (a.performAll calls) := by
  induction calls generalizing a with
  | nil => exact h.grown
  | cons call rest ih =>
    have hcall := grown_perform h call
    exact hcall.trans (ih hcall.sound)

end Arena

theorem Ledger.performAll?_ofArena {a : Arena} (h : a.Sound) (calls : List Arena.Call) :
    (ofArena a).performAll? calls = some (ofArena (a.performAll calls)) := by
  induction calls generalizing a with
  | nil => rfl
  | cons call rest ih =>
    have hcall := perform?_ofArena h call
    have hrest := ih (Arena.grown_perform h call).sound
    rw [performAll?, List.foldlM_cons, hcall]
    exact hrest

theorem Arena.performAll_append (a : Arena) (calls later : List Arena.Call) :
    a.performAll (calls ++ later) = (a.performAll calls).performAll later :=
  List.foldl_append

/-- After every history of an arena: the pieces, the sums of their sizes, the bounds of the
capacity, and a ledger of 32 bits that has kept up. -/
theorem Arena.partitioned_performAll (capacity limit : Nat) (calls : List Arena.Call) :
    let start := Arena.withLimit capacity limit
    let a := start.performAll calls
    a.Partitioned ∧
      (∃ free, Tables.freeBytes? a.blocks.freeRanges = some free ∧
        free + Tables.liveBytes a.blocks.liveBlocks = a.capacity) ∧
      a.limit = start.limit ∧ start.limit ≤ maxCapacity ∧ a.capacity ≤ a.limit ∧
      (∀ later, a.capacity ≤ (start.performAll (calls ++ later)).capacity) ∧
      (Ledger.open? capacity limit).bind (·.performAll? calls) = some (.ofArena a) := by
  intro start a
  have hstart : start.Sound := sound_withLimit capacity limit
  have ha : Grown start a := grown_performAll hstart calls
  refine ⟨ha.sound.partitioned, ⟨_, Tables.freeBytes?_freeRanges a.blocks, ?_⟩, ha.limit,
    hstart.limit_le, ha.sound.capacity_le, ?_, ?_⟩
  · rw [Tables.liveBytes_liveBlocks, Blocks.freeBytes_add_liveBytes]
    exact ha.sound.extent
  · intro later
    rw [performAll_append]
    exact (grown_performAll ha.sound later).capacity
  · rw [Ledger.ofArena_withLimit, Option.bind_some]
    exact Ledger.performAll?_ofArena hstart calls

end BytecodeKernel
