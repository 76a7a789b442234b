import BytecodeKernel.Proofs.Machine.Operands
/-!
Call frames as values. The frame region holds the open frames end to end, each of them a cursor and
its locals. A frame that is opened is cleared before its cursor is written, a local is one slot of
the newest frame, and what is written to a frame does not meet those below it.
-/

namespace BytecodeKernel

/-- What a frame holds: where it returns to, and its locals. -/
structure Frame where
  cursor : UInt32
  locals : Vector Int64 frameLocals
deriving DecidableEq

/-- A frame when it is opened. -/
def Frame.opened (cursor : UInt32) : Frame where
  cursor
  locals := .replicate frameLocals 0

theorem ByteStore.read_write_replicate (s : ByteStore) {addr start count length : Nat}
    (hle : addr ≤ start) (hend : start + count ≤ addr + length) :
    (s.write addr (List.replicate length 0)).read start count = List.replicate count 0 := by
  refine List.ext_getElem (by simp) fun i hi hi' => ?_
  have hlt : i < count := by simpa using hi
  rw [getElem_read, get_write_replicate, if_pos (by omega), List.getElem_replicate]

namespace Stack

/-- The slot at an address. -/
def slotAt (a : Arena) (addr : Nat) : Int64 :=
  slotOfBytes (a.store.read addr slotSize)

/-- The frame at some place of a region. -/
def frameAt (region : Nat) (a : Arena) (index : Nat) : Frame where
  cursor := (slotAt a (region + index * frameSize)).toUInt64.toUInt32
  locals := .ofFn fun i => slotAt a (region + (index * frameSize + (1 + i) * slotSize))

/-- The open frames, newest first. -/
def openFrames (s : Stack) (a : Arena) : List Frame :=
  s.frames.elim [] fun region => ((List.range s.depth).map (frameAt region a)).reverse

variable {s : Stack} {a b : Arena} {region depth index : Nat}

theorem slotAt_congr {addr : Nat}
    (h : ∀ x, addr ≤ x → x < addr + slotSize → b.store.get x = a.store.get x) :
    slotAt b addr = slotAt a addr :=
  congrArg slotOfBytes (ByteStore.read_congr h)

/-- The slots of one frame do not meet, and all of them are inside of it. -/
theorem slot_end_le {i : Nat} (hi : i < frameLocals) :
    (1 + i) * slotSize + slotSize ≤ frameSize := by
  simp only [frameLocals] at hi
  simp only [slotSize, frameSize, frameLocals]
  omega

/-- A frame depends on its own bytes alone. -/
theorem frameAt_congr (h : ∀ x, region + index * frameSize ≤ x →
    x < region + (index * frameSize + frameSize) → b.store.get x = a.store.get x) :
    frameAt region b index = frameAt region a index := by
  have hslot : slotSize ≤ frameSize := by decide
  rw [frameAt, frameAt, Frame.mk.injEq]
  constructor
  · rw [slotAt_congr fun x hle hlt => h x hle (by omega)]
  · ext i hi
    have hend := slot_end_le hi
    rw [Vector.getElem_ofFn, Vector.getElem_ofFn]
    refine slotAt_congr fun x hle hlt => h x (by omega) ?_
    simp only at hlt
    omega

theorem openFrames_congr (hframes : s.frames = some region)
    (h : ∀ x, region ≤ x → x < region + s.depth * frameSize → b.store.get x = a.store.get x) :
    s.openFrames b = s.openFrames a := by
  rw [openFrames, openFrames, hframes, Option.elim_some, Option.elim_some]
  refine congrArg List.reverse (List.map_congr_left fun index hindex => ?_)
  refine frameAt_congr fun x hle hlt => h x (by omega) ?_
  have hend : index * frameSize + frameSize ≤ s.depth * frameSize := by
    rw [← Nat.succ_mul]
    exact Nat.mul_le_mul_right _ (List.mem_range.1 hindex)
  omega

theorem openFrames_of_frames_eq_none (hframes : s.frames = none) : s.openFrames a = [] := by
  rw [openFrames, hframes]
  rfl

theorem openFrames_of_depth_eq_zero (hdepth : s.depth = 0) : s.openFrames a = [] := by
  rw [openFrames, hdepth]
  cases s.frames <;> rfl

/-- The newest frame comes first. -/
theorem openFrames_succ (hframes : s.frames = some region) (hdepth : s.depth = depth + 1) :
    s.openFrames a = frameAt region a depth :: ({ s with depth } : Stack).openFrames a := by
  simp only [openFrames, hframes, Option.elim_some, hdepth, List.range_succ, List.map_append,
    List.map_singleton, List.reverse_append, List.reverse_singleton, List.singleton_append]

theorem toNat_cursor_frameAt (region : Nat) (a : Arena) (index : Nat) :
    (frameAt region a index).cursor.toNat = returnOf region a index := by
  simp [frameAt, returnOf, slotAt, addressLimit]

/-! ### What is written -/

/-- The arena when a slot has been written. -/
def withSlot (a : Arena) (addr : Nat) (v : Int64) : Arena :=
  { a with store := a.store.write addr (slotBytes v) }

/-- The arena when a frame has been cleared, and its cursor written. -/
def withFrame (a : Arena) (addr : Nat) (cursor : UInt32) : Arena :=
  withSlot { a with store := a.store.write addr (List.replicate frameSize 0) } addr
    (Int64.ofNat cursor.toNat)

theorem setSlot_eq {addr : Nat} (h : a.InRange addr slotSize) (v : Int64) :
    a.setSlot addr v = .ok (withSlot a addr v) := by
  rw [← length_slotBytes v] at h
  exact if_pos h

theorem slotAt_withSlot (a : Arena) (addr : Nat) (v : Int64) :
    slotAt (withSlot a addr v) addr = v := by
  have hread := ByteStore.read_write a.store addr (slotBytes v)
  rw [length_slotBytes] at hread
  rw [slotAt, withSlot, hread, slotOfBytes_slotBytes]

theorem slotAt_withSlot_of_disjoint (a : Arena) {addr other : Nat} (v : Int64)
    (h : other + slotSize ≤ addr ∨ addr + slotSize ≤ other) :
    slotAt (withSlot a addr v) other = slotAt a other := by
  rw [slotAt, withSlot, ByteStore.read_write_of_disjoint _ (by rw [length_slotBytes]; exact h)]
  rfl

theorem get_withSlot (a : Arena) {addr x : Nat} (v : Int64)
    (h : x < addr ∨ addr + slotSize ≤ x) : (withSlot a addr v).store.get x = a.store.get x := by
  rw [withSlot, ByteStore.get_write, if_neg]
  rw [length_slotBytes]
  omega

theorem get_withFrame (a : Arena) {addr x : Nat} (cursor : UInt32)
    (h : x < addr ∨ addr + frameSize ≤ x) :
    (withFrame a addr cursor).store.get x = a.store.get x := by
  have hslot : slotSize ≤ frameSize := by decide
  rw [withFrame, get_withSlot _ _ (by omega), ByteStore.get_write, if_neg]
  rw [List.length_replicate]
  omega

theorem frameAt_withFrame (region : Nat) (a : Arena) (depth : Nat) (cursor : UInt32) :
    frameAt region (withFrame a (region + depth * frameSize) cursor) depth = .opened cursor := by
  rw [frameAt, Frame.opened, Frame.mk.injEq]
  constructor
  · rw [withFrame, slotAt_withSlot]
    simp
  · ext i hi
    have hend := slot_end_le hi
    have hbehind : slotSize ≤ (1 + i) * slotSize := Nat.le_mul_of_pos_left _ (by omega)
    rw [Vector.getElem_ofFn, Vector.getElem_replicate, withFrame]
    dsimp only
    rw [slotAt_withSlot_of_disjoint _ _ (.inr (by omega)), slotAt,
      ByteStore.read_write_replicate _ (by omega) (by omega)]
    decide

/-- A frame that is written behind the open ones is the newest then. -/
theorem openFrames_withFrame (hframes : s.frames = some region) (cursor : UInt32) :
    ({ s with depth := s.depth + 1 } : Stack).openFrames
        (withFrame a (region + s.depth * frameSize) cursor) =
      .opened cursor :: s.openFrames a := by
  have hsucc := openFrames_succ (s := { s with depth := s.depth + 1 })
    (a := withFrame a (region + s.depth * frameSize) cursor) hframes rfl
  rw [hsucc, frameAt_withFrame, openFrames_congr hframes fun x _ hlt => get_withFrame a cursor
    (.inl hlt)]

/-- A local is written in its frame, and nothing else is. -/
theorem frameAt_withSlot (region : Nat) (a : Arena) (depth : Nat) (hindex : index < frameLocals)
    (v : Int64) :
    frameAt region (withSlot a (region + (depth * frameSize + (1 + index) * slotSize)) v) depth =
      { frameAt region a depth with
        locals := (frameAt region a depth).locals.set index v hindex } := by
  have hbehind : slotSize ≤ (1 + index) * slotSize := Nat.le_mul_of_pos_left _ (by omega)
  rw [frameAt, frameAt, Frame.mk.injEq]
  constructor
  · rw [slotAt_withSlot_of_disjoint a v (.inl (by omega))]
  · ext i hi
    rw [Vector.getElem_ofFn, Vector.getElem_set]
    by_cases heq : index = i
    · subst heq
      rw [if_pos rfl]
      exact slotAt_withSlot a _ v
    · rw [if_neg heq, Vector.getElem_ofFn]
      apply slotAt_withSlot_of_disjoint
      simp only [slotSize]
      omega

theorem openFrames_withSlot (hframes : s.frames = some region) (hdepth : s.depth = depth + 1)
    (hindex : index < frameLocals) (v : Int64) :
    s.openFrames (withSlot a (region + (depth * frameSize + (1 + index) * slotSize)) v) =
      (s.openFrames a).modifyHead fun f => { f with locals := f.locals.set index v hindex } := by
  have hbelow : ({ s with depth } : Stack).openFrames
      (withSlot a (region + (depth * frameSize + (1 + index) * slotSize)) v) =
      ({ s with depth } : Stack).openFrames a := by
    refine openFrames_congr (s := { s with depth }) hframes fun x _ hlt => ?_
    apply get_withSlot
    simp only at hlt
    omega
  rw [openFrames_succ hframes hdepth, openFrames_succ hframes hdepth,
    frameAt_withSlot region a depth hindex v, hbelow]
  rfl

end Stack

end BytecodeKernel
