import BytecodeKernel.Proofs.Machine.Dealings
import BytecodeKernel.Proofs.Machine.Shelves
/-!
Heaps without an arena: an array of bytes that can grow at its end, and a table of blocks that tiles
it. Addresses count from one. What does not lie inside is read as zero, and is lost when it is
written. The arena decides whether the array grows, where it lies then, and what the new bytes are.
-/

namespace BytecodeKernel

structure ByteHeap where
  /-- Where the arena has put the bytes. -/
  base : Nat
  bytes : List UInt8
  blocks : Blocks
  tiled : Heap.Tiled { base, size := bytes.length, blocks }

namespace Heap

/-- What a heap can be asked for. -/
inductive Use where
  | malloc (size : Nat)
  | calloc (size length : Nat)
  | free (addr : Nat)
  | getByte (addr : Nat)
  | getSigned (width addr : Nat)
  | setByte (addr : Nat) (v : UInt8)
  | setSigned (width addr : Nat) (v : Int)
  | copyIn (dst src length : Nat)
  | readBlock (addr : Nat)

inductive Answer where
  | done
  | address (addr : Nat)
  | byte (v : UInt8)
  | number (v : Int)
  | bytes (vs : List UInt8)
deriving DecidableEq

/-- The bytes that a free block has to have. -/
def Use.request : Use → Nat
  | malloc size => size
  | calloc size length => if size < length then 0 else size
  | _ => 0

end Heap

/-- Each byte of a word is a digit to the base of 256, the most significant one first. -/
theorem BigEndian.getElem_encode (width n : Nat) {i : Nat} (hi : i < (encode width n).length) :
    (encode width n)[i] = UInt8.ofNat (n / 256 ^ (width - 1 - i)) := by
  induction width generalizing n with
  | zero => simp [encode] at hi
  | succ width ih =>
    simp only [encode, List.getElem_append]
    rw [length_encode] at hi
    by_cases hlt : i < width
    · rw [dif_pos (by rwa [length_encode]), ih, Nat.div_div_eq_div_mul, ← Nat.pow_succ']
      congr 3
      omega
    · rw [dif_neg (by rwa [length_encode]), List.getElem_singleton,
        show width + 1 - 1 - i = 0 by omega, Nat.pow_zero, Nat.div_one]

namespace ByteHeap

/-- The heap that has these bytes and this table. -/
def record (x : ByteHeap) : Heap where
  base := x.base
  size := x.bytes.length
  blocks := x.blocks

theorem tiled_record (x : ByteHeap) : x.record.Tiled :=
  x.tiled

/-- Whether so many addresses from one on lie inside. -/
def Holds (x : ByteHeap) (addr length : Nat) : Prop :=
  1 ≤ addr ∧ addr + length ≤ x.bytes.length + 1

instance (x : ByteHeap) (addr length : Nat) : Decidable (x.Holds addr length) :=
  inferInstanceAs (Decidable (_ ∧ _))

/-- The bytes from an address on. -/
def get (x : ByteHeap) (addr length : Nat) : List UInt8 :=
  (x.bytes.drop (addr - 1)).take length

/-- All bytes, with others from an address on if these lie inside. -/
def overlaid (x : ByteHeap) (addr : Nat) (bytes : List UInt8) : List UInt8 :=
  if x.Holds addr bytes.length then
    x.bytes.mapIdx fun i b =>
      if addr - 1 ≤ i ∧ i < addr - 1 + bytes.length then bytes.getD (i - (addr - 1)) 0 else b
  else x.bytes

@[simp] theorem length_overlaid (x : ByteHeap) (addr : Nat) (bytes : List UInt8) :
    (x.overlaid addr bytes).length = x.bytes.length := by
  rw [overlaid]
  split
  · exact List.length_mapIdx
  · rfl

def put (x : ByteHeap) (addr : Nat) (bytes : List UInt8) : ByteHeap where
  base := x.base
  bytes := x.overlaid addr bytes
  blocks := x.blocks
  tiled := by
    rw [length_overlaid]
    exact x.tiled

def byteAt (x : ByteHeap) (addr : Nat) : UInt8 :=
  if x.Holds addr 1 then x.bytes.getD (addr - 1) 0 else 0

/-- The number that some bytes are in two's complement, the most significant one first. -/
def signedAt (x : ByteHeap) (width addr : Nat) : Int :=
  if x.Holds addr width then BigEndian.decodeSigned (x.get addr width) else 0

/-- Takes a block, the first free one that is large enough. -/
def take (x : ByteHeap) (size : Nat) : Except MemoryError (Nat × ByteHeap) :=
  match h : x.blocks.allocate size with
  | .ok (addr, blocks) => .ok (addr, { x with blocks, tiled := x.tiled.allocate h })
  | .error e => .error e

def release (x : ByteHeap) (addr : Nat) : Except MemoryError ByteHeap :=
  match h : x.blocks.release addr with
  | .ok blocks => .ok { x with blocks, tiled := x.tiled.release h }
  | .error e => .error e

/-- What is answered, and how the bytes and the table are afterwards, when they grow no more. -/
def use (x : ByteHeap) (a : Arena) : Heap.Use → Except MemoryError (Heap.Answer × ByteHeap)
  | .malloc size => (x.take size).map fun (addr, y) => (.address addr, y)
  | .calloc size length =>
    if size < length then .error (.invalidLength size length)
    else (x.take size).map fun (addr, y) => (.address addr, y.put addr (List.replicate length 0))
  | .free addr => (x.release addr).map fun y => (.done, y)
  | .getByte addr => .ok (.byte (x.byteAt addr), x)
  | .getSigned width addr => .ok (.number (x.signedAt width addr), x)
  | .setByte addr v => .ok (.done, x.put addr [v])
  | .setSigned width addr v => .ok (.done, x.put addr (BigEndian.encodeSigned width v))
  | .copyIn dst src length =>
    if x.Holds dst length then
      if a.InRange src length then .ok (.done, x.put dst (a.store.read src length))
      else .error (.outOfBounds src length)
    else .error (.outOfBounds dst length)
  | .readBlock addr =>
    match x.blocks.sizeOf? addr with
    | some length => .ok (.bytes (x.get addr length), x)
    | none => .error (.invalidPointer addr)

/-- How the bytes and the table may be when so many bytes are asked for: as they were, or, if no
free block has as many, with so many more behind them. -/
inductive Grows (x : ByteHeap) (size : Nat) : ByteHeap → Prop where
  | stays : Grows x size x
  | grows {y : ByteHeap} : x.blocks.largestFree < size → y.blocks = x.blocks.extend size →
      x.bytes <+: y.bytes → Grows x size y

/-- What changes nothing in the whole arena. -/
def Idle (x : ByteHeap) : Heap.Use → Prop
  | .getByte _ | .getSigned .. | .readBlock _ => True
  | .setByte addr _ => ¬ x.Holds addr 1
  | .setSigned width addr _ => ¬ x.Holds addr width
  | .malloc _ | .calloc .. | .free _ | .copyIn .. => False

/-- One entry of a log. What is refused changes nothing at all. -/
inductive Takes (x : ByteHeap) :
    Used Heap.Use (Except MemoryError Heap.Answer) → ByteHeap → Prop where
  | answered {use : Heap.Use} {answer : Heap.Answer} {y z : ByteHeap} {before after : Arena} :
      x.Grows use.request z → z.use before use = .ok (answer, y) →
      (x.Idle use → after = before) → Takes x ⟨use, .ok answer, before, after⟩ y
  | refused {use : Heap.Use} {e : MemoryError} {a : Arena} :
      x.use a use = .error e → Takes x ⟨use, .error e, a, a⟩ x

variable {x y : ByteHeap} {addr length size : Nat} {bytes : List UInt8} {blocks : Blocks}
  {e : MemoryError}

/-- What lies outside is lost. -/
theorem put_of_not_holds (h : ¬ x.Holds addr bytes.length) : x.put addr bytes = x := by
  simp only [put, overlaid, if_neg h]

theorem take_of_ok (h : x.blocks.allocate size = .ok (addr, blocks)) :
    x.take size = .ok (addr, { x with blocks, tiled := x.tiled.allocate h }) := by
  unfold take
  split
  · rename_i heq
    cases heq.symm.trans h
    rfl
  · rename_i heq
    cases heq.symm.trans h

theorem take_of_error (h : x.blocks.allocate size = .error e) : x.take size = .error e := by
  unfold take
  split
  · rename_i heq
    cases heq.symm.trans h
  · rename_i heq
    cases heq.symm.trans h
    rfl

/-- What is taken is what the table gave. -/
theorem allocate_of_take (h : x.take size = .ok (addr, y)) :
    x.blocks.allocate size = .ok (addr, y.blocks) := by
  cases hallocate : x.blocks.allocate size with
  | ok result =>
    cases (take_of_ok hallocate).symm.trans h
    rfl
  | error e => cases (take_of_error hallocate).symm.trans h

theorem release_of_ok (h : x.blocks.release addr = .ok blocks) :
    x.release addr = .ok { x with blocks, tiled := x.tiled.release h } := by
  unfold release
  split
  · rename_i heq
    cases heq.symm.trans h
    rfl
  · rename_i heq
    cases heq.symm.trans h

theorem release_of_error (h : x.blocks.release addr = .error e) : x.release addr = .error e := by
  unfold release
  split
  · rename_i heq
    cases heq.symm.trans h
  · rename_i heq
    cases heq.symm.trans h
    rfl

/-! ### What is always so -/

/-- The blocks and the free ranges, each with its start and its end. -/
def pieces (x : ByteHeap) : List (Nat × Nat) :=
  x.blocks.liveBlocks.map (fun b => (b.1, b.1 + b.2)) ++ x.blocks.freeRanges

/-- The laws that the bytes and the table obey at any time. -/
structure Lawful (x : ByteHeap) : Prop where
  /-- The pieces cut the addresses from one to the size. -/
  nonempty : ∀ p ∈ x.pieces, p.1 < p.2
  disjoint : x.pieces.Pairwise fun p q => p.2 ≤ q.1 ∨ q.2 ≤ p.1
  covered : ∀ addr, (∃ p ∈ x.pieces, p.1 ≤ addr ∧ addr < p.2) ↔ 1 ≤ addr ∧ addr ≤ x.bytes.length
  /-- Between two free ranges there is at least one address. -/
  separated : x.blocks.freeRanges.Pairwise fun p q => p.2 < q.1
  /-- A new block is inside, and meets no other. -/
  fresh : ∀ use addr y before after, x.Takes ⟨use, .ok (.address addr), before, after⟩ y →
    y.Holds addr use.request ∧ ∀ b ∈ x.blocks.liveBlocks, Apart (addr, use.request) b
  /-- A word is written with its most significant byte first. -/
  bigEndian : ∀ width addr (v : Int) i, x.Holds addr width → i < width →
    (x.put addr (BigEndian.encodeSigned width v)).byteAt (addr + i) =
      UInt8.ofNat ((v % BigEndian.limit width).toNat / 256 ^ (width - 1 - i))
  /-- A number that has room in a word inside is read back from it. -/
  exact : ∀ width addr (v : Int), x.Holds addr width →
    -(BigEndian.limit width : Int) ≤ 2 * v → 2 * v < BigEndian.limit width →
      (x.put addr (BigEndian.encodeSigned width v)).signedAt width addr = v

theorem length_get (h : x.Holds addr length) : (x.get addr length).length = length := by
  obtain ⟨hnull, hend⟩ := h
  rw [get, List.length_take, List.length_drop]
  omega

theorem getElem_get {i : Nat} (hi : i < (x.get addr length).length) :
    (x.get addr length)[i] = x.bytes.getD (addr - 1 + i) 0 := by
  have hlt : addr - 1 + i < x.bytes.length := by
    simp only [get, List.length_take, List.length_drop] at hi
    omega
  simp only [get, List.getElem_take, List.getElem_drop, List.getD_eq_getElem?_getD,
    List.getElem?_eq_getElem hlt, Option.getD_some]

theorem holds_put {more : List UInt8} :
    (x.put addr more).Holds addr length ↔ x.Holds addr length := by
  rw [Holds, put, length_overlaid]
  rfl

/-- What was put is there. -/
theorem getD_put {i : Nat} (h : x.Holds addr bytes.length) (hi : i < bytes.length) :
    (x.put addr bytes).bytes.getD (addr - 1 + i) 0 = bytes[i] := by
  have hlt : addr - 1 + i < x.bytes.length := by
    obtain ⟨hnull, hend⟩ := h
    omega
  simp only [put, overlaid, if_pos h, List.getD_eq_getElem?_getD, List.getElem?_mapIdx,
    List.getElem?_eq_getElem hlt, Option.map_some, Option.getD_some]
  rw [if_pos (by omega), Nat.add_sub_cancel_left, List.getElem?_eq_getElem hi, Option.getD_some]

theorem get_put (h : x.Holds addr bytes.length) :
    (x.put addr bytes).get addr bytes.length = bytes := by
  refine List.ext_getElem (length_get (holds_put.2 h)) fun i hi hi' => ?_
  rw [getElem_get]
  exact getD_put h hi'

theorem byteAt_put {i : Nat} (h : x.Holds addr bytes.length) (hi : i < bytes.length) :
    (x.put addr bytes).byteAt (addr + i) = bytes[i] := by
  obtain ⟨hnull, hend⟩ := h
  have hin : (x.put addr bytes).Holds (addr + i) 1 := by
    rw [Holds, put, length_overlaid]
    omega
  rw [byteAt, if_pos hin, show addr + i - 1 = addr - 1 + i by omega]
  exact getD_put ⟨hnull, hend⟩ hi

theorem signedAt_put {width : Nat} {v : Int} (h : x.Holds addr width)
    (hle : -(BigEndian.limit width : Int) ≤ 2 * v) (hlt : 2 * v < BigEndian.limit width) :
    (x.put addr (BigEndian.encodeSigned width v)).signedAt width addr = v := by
  have hlength := BigEndian.length_encodeSigned width v
  have hput : (x.put addr (BigEndian.encodeSigned width v)).Holds addr width := holds_put.2 h
  have hin : x.Holds addr (BigEndian.encodeSigned width v).length := by
    rwa [hlength]
  have hget := get_put hin
  rw [hlength] at hget
  rw [signedAt, if_pos hput, hget, BigEndian.decodeSigned_encodeSigned]
  exact Int.bmod_eq_of_le_mul_two (by omega) (by omega)

/-- A block comes from the table as it is, or as it is when it has grown. -/
theorem Grows.obtain (h : x.Grows size y)
    (hallocate : y.blocks.allocate size = .ok (addr, blocks)) :
    x.blocks.obtain size = .ok (addr, blocks) := by
  rw [Blocks.obtain]
  cases h with
  | stays =>
    by_cases hfits : size ≤ x.blocks.largestFree
    · rw [if_pos hfits]
      exact hallocate
    · cases (Blocks.allocate_of_largestFree_lt (Nat.not_le.1 hfits)).symm.trans hallocate
  | grows hlarge hblocks _ =>
    rw [if_neg (Nat.not_le.2 hlarge), ← hblocks]
    exact hallocate

theorem fresh_of_take {z : ByteHeap} (hgrows : x.Grows size z)
    (htake : z.take size = .ok (addr, y)) :
    y.Holds addr size ∧ ∀ b ∈ x.blocks.liveBlocks, Apart (addr, size) b := by
  have hobtain := hgrows.obtain (allocate_of_take htake)
  have hmem : (addr, size) ∈ y.blocks.liveBlocks :=
    (Blocks.mem_liveBlocks_obtain hobtain).2 (.inl rfl)
  obtain ⟨hnull, hend⟩ := y.tiled.block_le hmem
  simp only at hend
  exact ⟨⟨by omega, by omega⟩, fun b hb => Blocks.disjoint_obtain hobtain hb⟩

theorem fresh_of_takes {use : Heap.Use} {before after : Arena}
    (h : x.Takes ⟨use, .ok (.address addr), before, after⟩ y) :
    y.Holds addr use.request ∧ ∀ b ∈ x.blocks.liveBlocks, Apart (addr, use.request) b := by
  cases h with
  | @answered _ _ _ z _ _ hgrows huse _ =>
    cases use with
    | malloc size =>
      obtain ⟨⟨found, reached⟩, htake, hpair⟩ := ok_of_map huse
      cases hpair
      exact fresh_of_take hgrows htake
    | calloc size length =>
      simp only [ByteHeap.use] at huse
      split at huse
      · contradiction
      · rename_i hle
        obtain ⟨⟨found, reached⟩, htake, hpair⟩ := ok_of_map huse
        cases hpair
        simp only [Heap.Use.request, if_neg hle] at hgrows ⊢
        rw [Holds, put, length_overlaid]
        exact fresh_of_take hgrows htake
    | free addr =>
      obtain ⟨reached, -, hpair⟩ := ok_of_map huse
      cases hpair
    | readBlock addr =>
      simp only [ByteHeap.use] at huse
      split at huse <;> cases huse
    | copyIn dst src length =>
      simp only [ByteHeap.use] at huse
      split at huse
      · split at huse <;> cases huse
      · cases huse
    | getByte | getSigned | setByte | setSigned => cases huse

theorem lawful (x : ByteHeap) : x.Lawful where
  nonempty p hp := by
    rcases List.mem_append.1 hp with hp | hp
    · obtain ⟨b, hb, rfl⟩ := List.mem_map.1 hp
      exact Nat.lt_add_of_pos_right (Segment.liveBlocks_pos x.tiled.tidy hb)
    · exact Segment.freeRanges_pos x.tiled.tidy hp
  disjoint := by
    refine List.pairwise_append.2 ⟨?_, ?_, ?_⟩
    · exact List.pairwise_map.2 ((Segment.liveBlocks_pairwise _ _).imp fun h => .inl h)
    · exact (Segment.freeRanges_pairwise _ x.tiled.tidy).imp fun h => .inl (Nat.le_of_lt h)
    · intro p hp q hq
      obtain ⟨b, hb, rfl⟩ := List.mem_map.1 hp
      exact Segment.live_disjoint_free hb hq
  covered addr := by
    have hcovered := Segment.covered_iff x.blocks.origin x.blocks.segments addr
    have hextent : Segment.extent x.blocks.segments = x.bytes.length := x.tiled.extent
    have horigin : x.blocks.origin = 1 := x.tiled.origin
    rw [hextent, horigin] at hcovered
    simp only [pieces, List.mem_append, List.mem_map, or_and_right, exists_or,
      exists_exists_and_eq_and, Blocks.liveBlocks, Blocks.freeRanges, horigin]
    rw [hcovered]
    omega
  separated := Segment.freeRanges_pairwise _ x.tiled.tidy
  fresh _ _ _ _ _ h := fresh_of_takes h
  bigEndian width addr v i h hi := by
    have hlength := BigEndian.length_encodeSigned width v
    rw [byteAt_put (by rwa [hlength]) (by rwa [hlength])]
    exact BigEndian.getElem_encode width _ _
  exact _ _ _ h hle hlt := signedAt_put h hle hlt

end ByteHeap

end BytecodeKernel
