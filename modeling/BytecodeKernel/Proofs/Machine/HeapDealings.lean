import BytecodeKernel.Proofs.Machine.ByteHeaps
/-!
A heap is a byte array with a table. Every use of a heap is answered as the array and the table have
it, wherever the region lies and however often it has moved; and where the arena has no room, or
something else is wrong, nothing has changed. This holds use after use, with anything else going on
in the arena in between.
-/

namespace BytecodeKernel

namespace Heap

def Use.action : Use → HeapM Answer
  | malloc size => return .address (← Heap.malloc size)
  | calloc size length => return .address (← Heap.calloc size length)
  | free addr => do
    Heap.free addr
    return .done
  | getByte addr => fun t => .ok (.byte (t.1.getByte t.2 addr)) t
  | getSigned width addr => fun t => .ok (.number (t.1.getSigned t.2 width addr)) t
  | setByte addr v => do
    (Call.write addr [v]).action
    return .done
  | setSigned width addr v => do
    (Call.setSigned width addr v).action
    return .done
  | copyIn dst src length => do
    (Call.copyIn dst src length).action
    return .done
  | readBlock addr => do
    let h ← TenantM.self
    return .bytes (← TenantM.ask id fun a => h.readBlock a addr)

theorem preserves_use {others : List (Nat × Nat)} {start : Arena} (use : Use) :
    Preserves (Home others start) use.action := by
  cases use with
  | malloc size => exact .bind (preserves_malloc size) fun _ => .pure _
  | calloc size length => exact .bind (preserves_calloc size length) fun _ => .pure _
  | free addr => exact .bind (preserves_free addr) fun _ => .pure _
  | getByte addr => exact fun _ h => h
  | getSigned width addr => exact fun _ h => h
  | setByte | setSigned | copyIn => exact .bind (preserves_action _) fun _ => .pure _
  | readBlock addr =>
    exact .bind TenantM.preserves_self fun h => .bind (TenantM.preserves_ask _ _) fun _ => .pure _

/-- The heap has the bytes and the table. -/
structure Reflects (x : ByteHeap) (t : Heap × Arena) : Prop where
  heap : t.1 = x.record
  bytes : ∀ i < x.bytes.length, t.2.store.get (x.base + i) = x.bytes.getD i 0

/-- What a heap has in an arena. -/
def contents (h : Heap) (a : Arena) (ht : h.Tiled) : ByteHeap where
  base := h.base
  bytes := a.store.read h.base h.size
  blocks := h.blocks
  tiled := by
    rw [ByteStore.length_read]
    exact ht

theorem reflects_contents (h : Heap) (a : Arena) (ht : h.Tiled) :
    Reflects (h.contents a ht) (h, a) where
  heap := by
    simp only [ByteHeap.record, contents, ByteStore.length_read]
  bytes i hi := by
    have hlt : i < h.size := by simpa [contents] using hi
    exact (ByteStore.getD_read a.store hlt).symm

/-- How a use ends that begins with these bytes and this table. -/
def Follows (x : ByteHeap) (use : Use) (t : Heap × Arena)
    (result : EStateM.Result MemoryError (Heap × Arena) Answer) : Prop :=
  Ends result (fun answer u => ∃ y, x.Takes ⟨use, .ok answer, t.2, u.2⟩ y ∧ Reflects y u)
    fun e u => u = t ∧ x.use t.2 use = .error e

variable {regions others : List (Nat × Nat)} {x : ByteHeap} {h : Heap} {a : Arena}
  {addr length size : Nat} {bytes : List UInt8}

/-! ### Reading -/

theorem inRange_of_holds (ha : a.Owns regions) (hr : x.record.region ∈ regions)
    (hin : x.Holds addr length) : a.InRange (x.base + (addr - 1)) length := by
  obtain ⟨hnull, hend⟩ := hin
  refine ha.inRange hr (Nat.le_add_right _ _) ?_
  show x.base + (addr - 1) + length ≤ x.base + x.bytes.length
  omega

/-- What lies inside is at its place in the region. -/
theorem locate?_record (ha : a.Owns regions) (hr : x.record.region ∈ regions) (addr length : Nat) :
    x.record.locate? addr length =
      if x.Holds addr length then some (x.base + (addr - 1)) else none := by
  rw [locate?]
  by_cases hin : x.Holds addr length
  · have hholds : 1 ≤ addr ∧ addr + length ≤ x.bytes.length + 1 := hin
    have hsize : x.record.size = x.bytes.length := rfl
    rw [if_pos hin, if_neg (by omega)]
    refine ha.add? hr ?_
    show addr - 1 ≤ x.bytes.length
    omega
  · have hholds : ¬ (1 ≤ addr ∧ addr + length ≤ x.bytes.length + 1) := hin
    have hsize : x.record.size = x.bytes.length := rfl
    rw [if_neg hin, if_pos (by omega)]

theorem Reflects.read (hx : Reflects x (x.record, a)) (hin : x.Holds addr length) :
    a.store.read (x.base + (addr - 1)) length = x.get addr length := by
  refine List.ext_getElem ?_ fun i hi hi' => ?_
  · rw [ByteStore.length_read, ByteHeap.length_get hin]
  · have hlt : i < length := by simpa using hi
    obtain ⟨hnull, hend⟩ := hin
    rw [ByteStore.getElem_read, ByteHeap.getElem_get, Nat.add_assoc]
    exact hx.bytes _ (by omega)

theorem Reflects.read? (ha : a.Owns regions) (hr : x.record.region ∈ regions)
    (hx : Reflects x (x.record, a)) (addr length : Nat) :
    x.record.read? a addr length =
      if x.Holds addr length then some (x.get addr length) else none := by
  rw [Heap.read?, locate?_record ha hr]
  by_cases hin : x.Holds addr length
  · have hread : a.read (x.base + (addr - 1)) length = .ok (x.get addr length) := by
      rw [← hx.read hin]
      exact if_pos (inRange_of_holds ha hr hin)
    simp only [if_pos hin, Option.bind_eq_bind, Option.bind_some, hread, Except.toOption]
  · simp only [if_neg hin, Option.bind_eq_bind, Option.bind_none]

theorem Reflects.getByte (ha : a.Owns regions) (hr : x.record.region ∈ regions)
    (hx : Reflects x (x.record, a)) (addr : Nat) : x.record.getByte a addr = x.byteAt addr := by
  rw [Heap.getByte, hx.read? ha hr, ByteHeap.byteAt]
  by_cases hin : x.Holds addr 1
  · rw [if_pos hin, if_pos hin, Option.getD_some]
    have hlength := ByteHeap.length_get hin
    have hfirst : (x.get addr 1)[0] = x.bytes.getD (addr - 1) 0 := ByteHeap.getElem_get _
    rw [List.headD_eq_head?_getD, List.head?_eq_getElem?, List.getElem?_eq_getElem (by omega),
      Option.getD_some, hfirst]
  · rw [if_neg hin, if_neg hin]
    rfl

theorem Reflects.getSigned (ha : a.Owns regions) (hr : x.record.region ∈ regions)
    (hx : Reflects x (x.record, a)) (width addr : Nat) :
    x.record.getSigned a width addr = x.signedAt width addr := by
  rw [Heap.getSigned, hx.read? ha hr, ByteHeap.signedAt]
  split <;> rfl

theorem Reflects.readBlock (ha : a.Owns regions) (hr : x.record.region ∈ regions)
    (hx : Reflects x (x.record, a)) (addr : Nat) :
    x.record.readBlock a addr = match x.blocks.sizeOf? addr with
      | some length => .ok (x.get addr length)
      | none => .error (.invalidPointer addr) := by
  rw [readBlock_eq x.tiled_record ha hr, show x.record.blocks = x.blocks from rfl]
  cases hsize : x.blocks.sizeOf? addr with
  | none => rfl
  | some length =>
    have hblock := x.tiled.block_le ((Blocks.sizeOf?_eq_some_iff x.tiled.tidy).1 hsize)
    have hin : x.Holds addr length := by
      obtain ⟨hnull, hend⟩ := hblock
      simp only at hend
      exact ⟨by omega, by omega⟩
    exact congrArg Except.ok (hx.read hin)

/-! ### Writing -/

theorem record_put (x : ByteHeap) (addr : Nat) (bytes : List UInt8) :
    (x.put addr bytes).record = x.record := by
  rw [ByteHeap.record, ByteHeap.put, ByteHeap.record, ByteHeap.length_overlaid]

/-- Bytes that are written inside are overlaid. -/
theorem Reflects.written (hx : Reflects x (x.record, a)) (hin : x.Holds addr bytes.length) :
    Reflects (x.put addr bytes)
      (x.record, { a with store := a.store.write (x.base + (addr - 1)) bytes }) where
  heap := (record_put x addr bytes).symm
  bytes i hi := by
    have hlt : i < x.bytes.length := by
      simpa only [ByteHeap.put, ByteHeap.length_overlaid] using hi
    have hold := hx.bytes i hlt
    simp only [List.getD_eq_getElem?_getD, List.getElem?_eq_getElem hlt, Option.getD_some] at hold
    simp only [ByteHeap.put, ByteHeap.overlaid, if_pos hin, ByteStore.get_write,
      List.getD_eq_getElem?_getD, List.getElem?_mapIdx, List.getElem?_eq_getElem hlt,
      Option.map_some, Option.getD_some, hold]
    by_cases hmem : addr - 1 ≤ i ∧ i < addr - 1 + bytes.length
    · rw [if_pos hmem, if_pos (by omega)]
      congr 2
      omega
    · rw [if_neg hmem, if_neg (by omega)]

theorem Reflects.write (ha : a.Owns regions) (hr : x.record.region ∈ regions)
    (hx : Reflects x (x.record, a)) (addr : Nat) (bytes : List UInt8) :
    Reflects (x.put addr bytes) (x.record, x.record.write a addr bytes) ∧
      (¬ x.Holds addr bytes.length → x.record.write a addr bytes = a) := by
  rw [Heap.write, locate?_record ha hr]
  by_cases hin : x.Holds addr bytes.length
  · simp only [if_pos hin, Arena.write, if_pos (inRange_of_holds ha hr hin)]
    exact ⟨hx.written hin, fun hout => absurd hin hout⟩
  · simp only [if_neg hin]
    refine ⟨?_, fun _ => trivial⟩
    rw [ByteHeap.put_of_not_holds hin]
    exact hx

theorem Reflects.copyIn (ha : a.Owns regions) (hr : x.record.region ∈ regions)
    (hx : Reflects x (x.record, a)) (dst src length : Nat) :
    match x.use a (.copyIn dst src length) with
    | .ok (answer, y) => answer = .done ∧
      ∃ b, x.record.copyIn a dst src length = .ok b ∧ Reflects y (x.record, b)
    | .error e => x.record.copyIn a dst src length = .error e := by
  rw [ByteHeap.use, Heap.copyIn, locate?_record ha hr]
  by_cases hin : x.Holds dst length
  · have hrange := inRange_of_holds ha hr hin
    by_cases hsrc : a.InRange src length
    · simp only [if_pos hin, if_pos hsrc, Arena.copy, Arena.read, bind, Except.bind, if_pos hrange]
      refine ⟨trivial, _, rfl, hx.written ?_⟩
      rwa [ByteStore.length_read]
    · simp only [if_pos hin, if_neg hsrc, Arena.copy, Arena.read, bind, Except.bind]
  · simp only [if_neg hin]

/-! ### Taking and giving back -/

/-- A growth that is not refused puts new bytes behind the old ones. There is room for the block
then, or nothing has happened. -/
theorem Reflects.reserve (ha : a.Owns (x.record.region :: others)) (hx : Reflects x (x.record, a))
    (size : Nat) :
    ∃ z t, Heap.reserve size (x.record, a) = .ok () t ∧ t.2.Owns (t.1.region :: others) ∧
      x.Grows size z ∧ Reflects z t ∧
      (t = (x.record, a) ∧ z = x ∨ ∃ r, z.blocks.allocate size = .ok r) := by
  by_cases hfits : size ≤ x.blocks.largestFree
  · have hsame : Heap.reserve size (x.record, a) = .ok () (x.record, a) := by
      rw [Heap.reserve]
      exact if_pos (.inl hfits)
    exact ⟨x, _, hsame, ha, .stays, hx, .inl ⟨rfl, rfl⟩⟩
  rcases reserve_cases x.tiled_record ha size with
    ⟨⟨h, b⟩, hreserve, hhome, htiled, hle, hblocks, hbytes⟩ | ⟨-, hsame⟩
  · rw [show x.record.blocks = x.blocks from rfl, if_neg hfits] at hblocks
    -- The new bytes are what the arena had there.
    refine ⟨h.contents b htiled, (h, b), hreserve, hhome.owns,
      .grows (Nat.not_le.1 hfits) hblocks ?_, reflects_contents h b htiled, .inr ?_⟩
    · have hle : x.bytes.length ≤ h.size := hle
      refine List.prefix_iff_getElem.2 ⟨?_, fun i hi => ?_⟩
      · simpa [contents] using hle
      · have hmoved := (hbytes i hi).trans (hx.bytes i hi)
        simp only [contents, ByteStore.getElem_read]
        rw [hmoved, List.getD_eq_getElem?_getD, List.getElem?_eq_getElem hi, Option.getD_some]
    · obtain ⟨addr, blocks, hallocate⟩ :=
        Blocks.exists_allocate_extend (show size ≠ 0 by omega) x.blocks
      exact ⟨(addr, blocks), by rw [← hallocate, ← hblocks]; rfl⟩
  · exact ⟨x, _, hsame, ha, .stays, hx, .inl ⟨rfl, rfl⟩⟩

theorem Reflects.ends_malloc (ha : a.Owns (x.record.region :: others))
    (hx : Reflects x (x.record, a)) (size : Nat) :
    Ends (Heap.malloc size (x.record, a))
      (fun addr u => ∃ z y, x.Grows size z ∧ z.take size = .ok (addr, y) ∧ Reflects y u ∧
        u.2.Owns (u.1.region :: others))
      (fun e u => u = (x.record, a) ∧ x.take size = .error e) := by
  obtain ⟨z, ⟨h, b⟩, hreserve, howns, hgrows, hz, hroom⟩ := hx.reserve ha size
  obtain rfl : h = z.record := hz.heap
  rw [Heap.malloc]
  refine Ends.of_ok hreserve (TenantM.ends_self ?_)
  rw [show z.record.blocks = z.blocks from rfl]
  cases hallocate : z.blocks.allocate size with
  | ok result =>
    refine ⟨z, _, hgrows, ByteHeap.take_of_ok hallocate, ⟨rfl, hz.bytes⟩, ?_⟩
    exact howns
  | error e =>
    rcases hroom with ⟨hsame, rfl⟩ | ⟨r, hr⟩
    · exact ⟨hsame, ByteHeap.take_of_error hallocate⟩
    · cases hallocate.symm.trans hr

theorem Reflects.malloc (ha : a.Owns (x.record.region :: others))
    (hx : Reflects x (x.record, a)) (size : Nat) :
    Follows x (.malloc size) (x.record, a) ((Use.malloc size).action (x.record, a)) := by
  refine Ends.bind ((hx.ends_malloc ha size).weaken (fun _ _ h => h) fun e u hu => ?_) ?_
  · refine ⟨hu.1, ?_⟩
    rw [ByteHeap.use, hu.2]
    rfl
  · rintro addr u ⟨z, y, hgrows, htake, hy, -⟩
    refine ⟨y, .answered hgrows ?_ False.elim, hy⟩
    rw [ByteHeap.use, htake]
    rfl

theorem Reflects.calloc (ha : a.Owns (x.record.region :: others))
    (hx : Reflects x (x.record, a)) (size length : Nat) :
    Follows x (.calloc size length) (x.record, a)
      ((Use.calloc size length).action (x.record, a)) := by
  by_cases hlong : size < length
  · simp only [Use.action, Heap.calloc, bind, EStateM.bind, if_pos hlong, run_throw]
    refine ⟨rfl, ?_⟩
    rw [ByteHeap.use, if_pos hlong]
  refine Ends.bind (Q := fun addr u => ∃ z y, x.Grows size z ∧ z.take size = .ok (addr, y) ∧
    Reflects (y.put addr (List.replicate length 0)) u) ?_ ?_
  · rw [Heap.calloc, if_neg hlong]
    refine Ends.bind ((hx.ends_malloc ha size).weaken (fun _ _ h => h) fun e u hu => ?_) ?_
    · refine ⟨hu.1, ?_⟩
      rw [ByteHeap.use, if_neg hlong, hu.2]
      rfl
    · rintro addr ⟨h, b⟩ ⟨z, y, hgrows, htake, hy, howns⟩
      obtain rfl : h = y.record := hy.heap
      refine TenantM.ends_self ?_
      have hin : y.Holds addr length := by
        obtain ⟨⟨hnull, hend⟩, -⟩ := ByteHeap.fresh_of_take hgrows htake
        exact ⟨hnull, by omega⟩
      have hzeros : y.Holds addr (List.replicate length (0 : UInt8)).length := by
        rwa [List.length_replicate]
      have hrange := inRange_of_holds howns List.mem_cons_self hin
      rw [locate?_record howns List.mem_cons_self, if_pos hin]
      refine Ends.of_ok (TenantM.updateArena_of_ok (Arena.write_replicate hrange 0)) ?_
      exact ⟨z, y, hgrows, htake, hy.written hzeros⟩
  · rintro addr u ⟨z, y, hgrows, htake, hy⟩
    have hrequest : (Use.calloc size length).request = size := if_neg hlong
    refine ⟨_, .answered (hrequest ▸ hgrows) ?_ False.elim, hy⟩
    rw [ByteHeap.use, if_neg hlong, htake]
    rfl

theorem Reflects.free (hx : Reflects x (x.record, a)) (addr : Nat) :
    Follows x (.free addr) (x.record, a) ((Use.free addr).action (x.record, a)) := by
  have hblocks : x.record.blocks = x.blocks := rfl
  cases hrelease : x.blocks.release addr with
  | ok blocks =>
    have huse : x.use a (.free addr) =
        .ok (.done, { x with blocks, tiled := x.tiled.release hrelease }) := by
      rw [ByteHeap.use, ByteHeap.release_of_ok hrelease]
      rfl
    simp only [Use.action, Heap.free, TenantM.self, bind, EStateM.bind, hblocks, hrelease]
    exact ⟨_, .answered .stays huse False.elim, rfl, hx.bytes⟩
  | error e =>
    simp only [Use.action, Heap.free, TenantM.self, bind, EStateM.bind, hblocks, hrelease]
    refine ⟨rfl, ?_⟩
    rw [ByteHeap.use, ByteHeap.release_of_error hrelease]
    rfl

/-! ### All uses -/

/-- Whatever a heap is asked for, it does as the array and the table do. -/
theorem Reflects.follows (ha : a.Owns (h.region :: others)) (hx : Reflects x (h, a)) (use : Use) :
    Follows x use (h, a) (use.action (h, a)) := by
  obtain rfl : h = x.record := hx.heap
  have hmem : x.record.region ∈ x.record.region :: others := List.mem_cons_self
  cases use with
  | malloc size => exact hx.malloc ha size
  | calloc size length => exact hx.calloc ha size length
  | free addr => exact hx.free addr
  | getByte addr =>
    refine ⟨x, .answered .stays ?_ fun _ => rfl, hx⟩
    rw [hx.getByte ha hmem, ByteHeap.use]
  | getSigned width addr =>
    refine ⟨x, .answered .stays ?_ fun _ => rfl, hx⟩
    rw [hx.getSigned ha hmem, ByteHeap.use]
  | setByte addr v =>
    obtain ⟨hwritten, hlost⟩ := hx.write ha hmem addr [v]
    exact ⟨_, .answered .stays rfl fun hidle => hlost hidle, hwritten⟩
  | setSigned width addr v =>
    obtain ⟨hwritten, hlost⟩ := hx.write ha hmem addr (BigEndian.encodeSigned width v)
    rw [BigEndian.length_encodeSigned] at hlost
    exact ⟨_, .answered .stays rfl fun hidle => hlost hidle, hwritten⟩
  | copyIn dst src length =>
    have hcopy := hx.copyIn ha hmem dst src length
    cases huse : x.use a (.copyIn dst src length) with
    | ok result =>
      rw [huse] at hcopy
      obtain ⟨hdone, b, hb, hy⟩ := hcopy
      have hupdate : (TenantM.updateArena id fun a => x.record.copyIn a dst src length :
          HeapM Unit) (x.record, a) = .ok () (x.record, b) := TenantM.updateArena_of_ok hb
      simp only [Use.action, Call.action, TenantM.self, bind, EStateM.bind, hupdate]
      refine ⟨result.2, .answered .stays ?_ False.elim, hy⟩
      rw [huse, ← hdone]
    | error e =>
      rw [huse] at hcopy
      simp only [Use.action, Call.action, TenantM.self, TenantM.updateArena, TenantM.onArena, bind,
        EStateM.bind, hcopy, Except.map]
      exact ⟨rfl, huse⟩
  | readBlock addr =>
    have hread := hx.readBlock ha hmem addr
    simp only [Use.action, TenantM.self, TenantM.ask, bind, EStateM.bind, hread]
    cases hsize : x.blocks.sizeOf? addr with
    | some length =>
      refine ⟨x, .answered .stays ?_ fun _ => rfl, hx⟩
      rw [ByteHeap.use, hsize]
    | none =>
      refine ⟨rfl, ?_⟩
      rw [ByteHeap.use, hsize]
      rfl

end Heap

/-! ### Dealings with a heap -/

namespace Session

/-- Lets a heap of the session be used. -/
def useHeap (id : Nat) (w : Workspace) (use : Heap.Use) :
    Option (Except MemoryError Heap.Answer × Workspace) :=
  w.onHeap id use.action

/-- The session has a heap under a number that has the bytes and the table. -/
def ShowsHeap (id : Nat) (x : ByteHeap) (s : Session) : Prop :=
  ∃ h, s.heapTable[id]? = some h ∧ Heap.Reflects x (h, s.arena)

variable {capacity limit id size : Nat} {T : Set Name} {x : ByteHeap} {s t : Session}
  {w : Workspace} {log : List (Used Heap.Use (Except MemoryError Heap.Answer))}

/-- One use is one step of the array and the table. -/
theorem ShowsHeap.useHeap (hs : s.Settled []) (hx : ShowsHeap id x s) {use : Heap.Use}
    {result : Except MemoryError Heap.Answer}
    (huse : useHeap id s.workspace use = some (result, w)) :
    Steps Set.univ [] s (s.become w) ∧
      ∃ y, x.Takes ⟨use, result, s.arena, w.arena⟩ y ∧ ShowsHeap id y (s.become w) := by
  obtain ⟨hsettled, hundisturbed⟩ :=
    Workspace.Settled.onHeap hs (fun _ _ => Heap.preserves_use use) huse
  refine ⟨(steps_become hsettled hundisturbed).mono (Set.subset_univ _), ?_⟩
  obtain ⟨h, hh, hreflects⟩ := hx
  have hhome := (Workspace.Settled.lendHeap hs hh).heapHome
  have hfollows : Heap.Follows x use (h, s.arena) (use.action (h, s.arena)) :=
    hreflects.follows hhome.owns use
  simp only [Session.useHeap, Workspace.onHeap, workspace, hh, Option.bind_eq_bind,
    Option.bind_some] at huse
  cases haction : use.action (h, s.arena) with
  | ok answer after =>
    rw [haction] at huse hfollows
    obtain ⟨y, hy, hafter⟩ := hfollows
    cases huse
    exact ⟨y, hy, after.1, Std.TreeMap.getElem?_insert_self, hafter⟩
  | error e after =>
    rw [haction] at huse hfollows
    obtain ⟨rfl, hrefused⟩ := hfollows
    cases huse
    exact ⟨x, .refused hrefused, h, Std.TreeMap.getElem?_insert_self, hreflects⟩

/-- A step of others is not seen in the bytes. -/
theorem ShowsHeap.untouched (hx : ShowsHeap id x s) (hid : .heap id ∉ T) (h : s.Untouched T t) :
    ShowsHeap id x t := by
  obtain ⟨u, hu, hreflects⟩ := hx
  have hfind : s.find? (.heap id) = some (.heap u) := Option.map_eq_some_iff.2 ⟨u, hu, rfl⟩
  obtain ⟨v, hv, heq⟩ := Option.map_eq_some_iff.1 ((h.kept _ hid).trans hfind)
  cases heq
  refine ⟨u, hv, hreflects.heap, fun i hi => ?_⟩
  obtain rfl : u = x.record := hreflects.heap
  have hbytes := h.bytes _ _ hid hfind x.record.region List.mem_cons_self (x.base + i)
    (Nat.le_add_right _ _) (Nat.add_lt_add_left hi _)
  exact hbytes.trans (hreflects.bytes i hi)

/-- A fresh heap has as many bytes as it was asked for, and one free block of them. -/
theorem showsHeap_of_newHeap (hw : s.workspace.newHeap id size = .ok w) :
    ∃ x, x.blocks = .ofSize 1 size ∧ x.bytes.length = size ∧ ShowsHeap id x (s.become w) := by
  obtain ⟨⟨h, a⟩, hcreate, hpair⟩ := ok_of_bind hw
  cases hpair
  obtain ⟨htiled, hblocks⟩ := Heap.tiled_of_create hcreate
  have hsize : h.size = size := by
    obtain ⟨⟨base, fresh⟩, -, hpair⟩ := ok_of_bind hcreate
    cases hpair
    rfl
  refine ⟨h.contents _ htiled, ?_, ?_, h, Std.TreeMap.getElem?_insert_self,
    Heap.reflects_contents h _ htiled⟩
  · rw [← hsize]
    exact hblocks
  · rw [← hsize]
    exact ByteStore.length_read _ _ _

/-- A heap is an array of bytes with a table of its own. Whatever it is asked for, and whatever else
happens in the arena in between, its answers are those of the array and the table, which obey their
laws at any time; and the arena has a block of just that size for it. -/
theorem heap_refines_bytes (hs : Reaches T (opened capacity limit) s)
    (hw : s.workspace.newHeap id size = .ok w)
    (hlog : Dealings (.heap id) (useHeap id) (s.become w) log t) :
    ∃ x y, x.blocks = .ofSize 1 size ∧ x.bytes.length = size ∧ Along ByteHeap.Takes x log y ∧
      y.Lawful ∧ (∃ h, t.heapTable[id]? = some h ∧ Heap.Reflects y (h, t.arena)) ∧
      (y.base, y.bytes.length) ∈ t.arena.blocks.liveBlocks := by
  have hreached := hs.steps [] (settled_opened capacity limit)
  have hnew := Workspace.Settled.newHeap hreached.1 hw
  have hbegun := steps_become hnew.1 hnew.2
  obtain ⟨x, hblocks, hsize, hx⟩ := showsHeap_of_newHeap hw
  obtain ⟨hend, y, halong, h, hh, hreflects⟩ := hlog.along
    (fun x s use result w hs hx huse => hx.useHeap hs huse)
    (fun x s t T _ hid h hx => hx.untouched hid h) hbegun.1 hx
  refine ⟨x, y, hblocks, hsize, halong, y.lawful, ⟨h, hh, hreflects⟩, ?_⟩
  have hfind : t.find? (.heap id) = some (.heap h) := Option.map_eq_some_iff.2 ⟨h, hh, rfl⟩
  obtain rfl : h = y.record := hreflects.heap
  exact hend.1.owned hfind List.mem_cons_self

/-! ### A heap that moves -/

def larder : Session :=
  opened 64 200

def pantry : Session :=
  larder.settle (larder.workspace.newHeap 0 16)

/-- The word at thirteen lies inside and the one at twelve does not. The second block does not fit,
so the heap moves to a region with room for it. -/
def pantryUses : List Heap.Use :=
  [.setSigned 4 13 (-2), .setSigned 8 12 5, .getSigned 8 12, .malloc 10, .malloc 40,
    .getSigned 4 13, .setByte 0 1]

def pantryLog : List (Used Heap.Use (Except MemoryError Heap.Answer)) × Session :=
  deal (useHeap 0) pantryUses pantry

/-- Another heap is made meanwhile. -/
def besidePantry : Session :=
  pantryLog.2.perform (.newHeap 1 20)

def laterUses : List Heap.Use :=
  [.calloc 200 4, .free 1, .calloc 4 4, .readBlock 1, .copyIn 3 1 2, .getByte 13, .free 2]

def laterLog : List (Used Heap.Use (Except MemoryError Heap.Answer)) × Session :=
  deal (useHeap 0) laterUses besidePantry

theorem newHeap_larder :
    ∃ w, larder.workspace.newHeap 0 16 = .ok w ∧ larder.become w = pantry :=
  exists_become_eq_settle larder (by decide +kernel)

theorem dealings_pantry :
    Dealings (.heap 0) (useHeap 0) pantry (pantryLog.1 ++ laterLog.1) laterLog.2 := by
  refine (dealings_deal _ _ pantryUses _).append (.others (T := {.heap 1}) (by simp) ?_
    (dealings_deal _ _ laterUses besidePantry))
  exact .call _ (.newHeap 1 20) trivial subset_rfl

/-- What is written before the heap moves is read afterwards. -/
theorem heap_refines_bytes_of_pantry :
    Reaches ∅ larder larder ∧
      ∃ w, larder.workspace.newHeap 0 16 = .ok w ∧
        Dealings (.heap 0) (useHeap 0) (larder.become w) (pantryLog.1 ++ laterLog.1) laterLog.2 ∧
        pantryLog.1.map (·.result) =
          [.ok .done, .ok .done, .ok (.number 0), .ok (.address 1), .ok (.address 11),
            .ok (.number (-2)), .ok .done] ∧
        laterLog.1.map (·.result) =
          [.error (.outOfMemory 200 6), .ok .done, .ok (.address 1), .ok (.bytes [0, 0, 0, 0]),
            .ok .done, .ok (.byte 255), .error (.invalidPointer 2)] ∧
        ∃ x y, x.blocks = .ofSize 1 16 ∧ x.bytes.length = 16 ∧
          Along ByteHeap.Takes x (pantryLog.1 ++ laterLog.1) y ∧ y.Lawful ∧
          (∃ h, laterLog.2.heapTable[0]? = some h ∧ Heap.Reflects y (h, laterLog.2.arena)) ∧
          (y.base, y.bytes.length) ∈ laterLog.2.arena.blocks.liveBlocks := by
  have hreaches : Reaches ∅ (opened 64 200) larder := .refl _ _
  obtain ⟨w, hw, hbegun⟩ := newHeap_larder
  have hlog := dealings_pantry
  rw [← hbegun] at hlog
  refine ⟨hreaches, w, hw, hlog, by decide +kernel, by decide +kernel, ?_⟩
  exact heap_refines_bytes hreaches hw hlog

end Session

end BytecodeKernel
