import BytecodeKernel.Proofs.Machine.Contents
import BytecodeKernel.Proofs.Memory.Room
/-!
A stack as a list of values. Whatever its region does, a push puts a value on top of the others and
a pop takes it from there; where the region has to grow and cannot, the fault is a shortage of
memory. A growth that is put off, or a region that could shrink and does not, is not seen in the
values.
-/

namespace BytecodeKernel

/-- A fault that is a shortage of memory. -/
def Fault.IsShortage : Fault → Prop
  | .memory e => e.IsShortage
  | _ => False

namespace Stack

/-- The stack has these values, oldest first, in a region beside those of others, whose bytes are
those of the start. Its frames are not touched. -/
structure Carries (others : List (Nat × Nat)) (start : Stack × Arena) (xs : List Int64)
    (t : Stack × Arena) : Prop where
  owns : t.2.Owns (t.1.operandRegion :: others)
  spares : Arena.Spares others start.2 t.2
  frames : t.1.frames = start.1.frames
  depth : t.1.depth = start.1.depth
  top_le : t.1.top ≤ t.1.size
  whole : slotSize ∣ t.1.top
  slots : t.1.slots t.2 = xs

variable {others : List (Nat × Nat)} {start : Stack × Arena} {xs : List Int64} {s : Stack}
  {a b : Arena} {size : Nat}

/-- Another arena with the same blocks and bytes for the stack and the others. -/
theorem Carries.withArena (h : Carries others start xs (s, a))
    (hb : b.Owns (s.operandRegion :: others)) (hstore : b.store = a.store)
    (hlimit : b.limit = a.limit) :
    Carries others start xs (s, b) where
  owns := hb
  spares := h.spares.trans (Arena.spares_of_store_eq hlimit hstore _)
  frames := h.frames
  depth := h.depth
  top_le := h.top_le
  whole := h.whole
  slots := (slots_congr fun _ _ _ => by rw [hstore]).trans h.slots

/-- Two regions with the same bytes below the top have the same values. -/
theorem slots_moved {moved : Nat}
    (h : ∀ i < s.top, b.store.get (moved + i) = a.store.get (s.base + i)) (size : Nat) :
    ({ s with base := moved, size } : Stack).slots b = s.slots a := by
  refine List.map_congr_left fun i hi => congrArg _ (List.ext_getElem (by simp) fun j hj hj' => ?_)
  have hend : i * slotSize + slotSize ≤ s.top := end_le_of_lt_length (List.mem_range.1 hi)
  have hlt : j < slotSize := by simpa using hj
  rw [ByteStore.getElem_read, ByteStore.getElem_read, Nat.add_assoc, Nat.add_assoc]
  exact h _ (by omega)

/-- A resize keeps the values. It fails for want of memory alone, and then nothing has changed, for
room that was reserved is there. -/
theorem Carries.resize (h : Carries others start xs (s, a)) (hsize : s.top ≤ size)
    (hpos : size ≠ 0) :
    Ends (Stack.resize size (s, a))
      (fun _ t => Carries others start xs t ∧ t.1.top = s.top ∧ t.1.size = size)
      (fun e t => e.IsShortage ∧ t = (s, a)) := by
  rw [Stack.resize]
  refine TenantM.ends_self ?_
  refine Ends.optional (M := fun t => Carries others start xs t ∧ t.1 = s ∧
      (t.2 = a ∨ ∃ grew, a.reserve size = .ok (grew, t.2))) (fun _ => ?_)
    (fun _ => ⟨h, rfl, .inl rfl⟩) ?_
  · refine TenantM.ends_onArena (fun grew b hreserve => ?_) fun e he => ?_
    · obtain ⟨howns, hstore, hlimit⟩ := h.owns.reserve hreserve
      exact ⟨h.withArena howns hstore hlimit, rfl, .inr ⟨grew, hreserve⟩⟩
    · exact ⟨Arena.isShortage_of_reserve he, rfl⟩
  · rintro ⟨t, b⟩ ⟨hb, ht, hroom⟩
    obtain rfl : s = t := ht.symm
    have hregion := hb.owns.mem_iff.2 List.mem_cons_self
    refine Ends.bind (Q := fun moved t => t.1 = s ∧
      t.2.Owns ((moved, size) :: s.operandRegion :: others) ∧
      Arena.Spares (s.operandRegion :: others) b t.2 ∧
      ∀ i < s.top, t.2.store.get (moved + i) = b.store.get (s.base + i))
      (TenantM.ends_onArena (fun moved c hmove => ?_) fun e he => ?_) ?_
    · obtain ⟨howns, hspares⟩ := hb.owns.tryReallocate hmove
      refine ⟨rfl, howns, hspares, fun i hi => ?_⟩
      exact hb.owns.get_moved List.mem_cons_self hmove (hi.trans_le h.top_le) (hi.trans_le hsize)
    · rcases hroom with rfl | ⟨grew, hreserve⟩
      · exact ⟨hb.owns.sound.isShortage_of_tryReallocate hregion hpos he, rfl⟩
      · obtain ⟨moved, after, hmove⟩ :=
          h.owns.sound.exists_tryReallocate_of_reserve hpos hreserve hregion
        rw [hmove] at he
        contradiction
    rintro moved ⟨t, c⟩ ⟨ht, howns, hspares, hbytes⟩
    obtain rfl : s = t := ht.symm
    obtain ⟨freed, hfree, hfreed, hstore, hlimit⟩ := (howns.perm (List.Perm.swap _ _ _)).free
    refine Ends.of_ok (TenantM.updateArena_of_ok hfree) ?_
    refine TenantM.ends_modifySelf
      ⟨⟨hfreed, ?_, hb.frames, hb.depth, hsize, hb.whole, ?_⟩, rfl, rfl⟩
    · have hothers := hspares.subset fun r hr => List.mem_cons_of_mem s.operandRegion hr
      exact (hb.spares.trans hothers).trans (Arena.spares_of_store_eq hlimit hstore _)
    · refine (slots_moved (fun i hi => ?_) size).trans hb.slots
      rw [hstore]
      exact hbytes i hi

/-- A resize that may fail is not seen in the values. -/
theorem Carries.attempt_resize {E : Fault → Stack × Arena → Prop}
    (h : Carries others start xs (s, a)) (hsize : s.top ≤ size) (hpos : size ≠ 0) :
    Ends (TenantM.attempt (Stack.resize size) (s, a)) (fun _ => Carries others start xs) E :=
  TenantM.ends_attempt ((h.resize hsize hpos).weaken (fun _ _ ht => ht.1) fun _ _ ht => ht.2 ▸ h)

theorem Carries.within (h : Carries others start xs (s, a)) {offset : Nat} (hle : offset ≤ s.size) :
    Stack.within s.base offset (s, a) = .ok (s.base + offset) (s, a) := by
  have hadd : Address.add? s.base offset = some (s.base + offset) :=
    h.owns.add? List.mem_cons_self hle
  simp only [Stack.within, hadd]
  rfl

/-- Whole slots below the top. -/
theorem Carries.length_eq (h : Carries others start xs (s, a)) : s.top = xs.length * slotSize := by
  have hlength : xs.length = s.length := by simp [← h.slots, Stack.slots]
  rw [hlength]
  exact (Nat.div_mul_cancel h.whole).symm

theorem slots_push (hwhole : slotSize ∣ s.top) (v : Int64) :
    ({ s with top := s.top + slotSize } : Stack).slots
        { a with store := a.store.write (s.base + s.top) (slotBytes v) } = s.slots a ++ [v] := by
  have hlength : ({ s with top := s.top + slotSize } : Stack).length = s.length + 1 :=
    Nat.add_div_right _ (by decide)
  have htop : s.length * slotSize = s.top := Nat.div_mul_cancel hwhole
  have hbelow : ∀ i ∈ List.range s.length,
      (a.store.write (s.base + s.top) (slotBytes v)).read (s.base + i * slotSize) slotSize =
        a.store.read (s.base + i * slotSize) slotSize := by
    intro i hi
    have hend := end_le_of_lt_length (List.mem_range.1 hi)
    exact ByteStore.read_write_of_disjoint _ (.inl (by omega))
  have hlast : (a.store.write (s.base + s.top) (slotBytes v)).read (s.base + s.top) slotSize =
      slotBytes v := by
    have h := ByteStore.read_write a.store (s.base + s.top) (slotBytes v)
    rwa [length_slotBytes] at h
  rw [slots, hlength, List.range_succ, List.map_append, List.map_singleton, htop, hlast,
    slotOfBytes_slotBytes, slots]
  refine congrArg (· ++ [v]) (List.map_congr_left fun i hi => ?_)
  rw [hbelow i hi]

/-- The slot at the top is written, and the top moves behind it. -/
theorem Carries.write (h : Carries others start xs (s, a)) (hroom : s.top + slotSize ≤ s.size)
    (v : Int64) :
    a.setSlot (s.base + s.top) v =
        .ok { a with store := a.store.write (s.base + s.top) (slotBytes v) } ∧
      Carries others start (xs ++ [v]) ({ s with top := s.top + slotSize },
        { a with store := a.store.write (s.base + s.top) (slotBytes v) }) := by
  have hend : s.base + s.top + (slotBytes v).length ≤ s.base + s.size := by
    rw [length_slotBytes]
    omega
  have hrange : a.InRange (s.base + s.top) (slotBytes v).length :=
    h.owns.inRange List.mem_cons_self (Nat.le_add_right _ _) hend
  refine ⟨if_pos hrange, h.owns.withStore _, ?_, h.frames, h.depth, hroom, ?_, ?_⟩
  · exact h.spares.trans (h.owns.spares_write (Nat.le_add_right _ _) hend)
  · exact Nat.dvd_add h.whole (Nat.dvd_refl _)
  · rw [slots_push h.whole, h.slots]

/-- A push puts the value on top of the others. Or there is no room for it, and nothing happens. -/
theorem Carries.push (h : Carries others start xs (s, a)) (v : Int64) :
    Ends (Stack.push v (s, a)) (fun _ => Carries others start (xs ++ [v]))
      (fun e t => e.IsShortage ∧ t = (s, a)) := by
  rw [Stack.push]
  refine TenantM.ends_self ?_
  refine Ends.optional (M := fun t => Carries others start xs t ∧ t.1.top + slotSize ≤ t.1.size)
    (fun _ => ?_) (fun hroom => ⟨h, Nat.not_lt.1 hroom⟩) ?_
  · refine (h.resize (Nat.le_add_right_of_le h.top_le) (by simp [growBytes])).weaken ?_
      fun _ _ ht => ht
    rintro - t ⟨ht, htop, hsize⟩
    have hle : s.top ≤ s.size := h.top_le
    refine ⟨ht, ?_⟩
    rw [htop, hsize]
    simp only [slotSize, growBytes]
    omega
  · rintro ⟨t, b⟩ ⟨ht, hroom⟩
    obtain ⟨hset, hpushed⟩ := ht.write hroom v
    refine TenantM.ends_self (Ends.of_ok (ht.within ht.top_le) ?_)
    refine Ends.of_ok (TenantM.updateArena_of_ok hset) ?_
    refine Ends.of_ok rfl (TenantM.ends_self ?_)
    split
    · exact hpushed.attempt_resize (Nat.le_add_right_of_le hpushed.top_le) (by simp [growBytes])
    · exact hpushed

theorem slots_pop {v : Int64} (h : s.slots a = xs ++ [v]) :
    ({ s with top := s.top - slotSize } : Stack).slots a = xs ∧
      slotOfBytes (a.store.read (s.base + xs.length * slotSize) slotSize) = v := by
  have hlength : s.length = xs.length + 1 := by
    have hmap := congrArg List.length h
    simpa [slots] using hmap
  have hshort : ({ s with top := s.top - slotSize } : Stack).length = xs.length := by
    have hlong : s.top / slotSize = xs.length + 1 := hlength
    show (s.top - slotSize) / slotSize = xs.length
    simp only [slotSize] at hlong ⊢
    omega
  rw [slots, hlength, List.range_succ, List.map_append, List.map_singleton] at h
  obtain ⟨hfront, hlast⟩ := List.append_inj' h rfl
  refine ⟨?_, List.singleton_inj.1 hlast⟩
  rw [slots, hshort]
  exact hfront

/-- The newest value is in the slot below the top. -/
theorem Carries.getSlot_top {v : Int64} (h : Carries others start (xs ++ [v]) (s, a)) :
    slotSize ≤ s.top ∧ a.getSlot (s.base + (s.top - slotSize)) = .ok v := by
  have htop := h.length_eq
  rw [List.length_append, List.length_singleton, Nat.add_mul, Nat.one_mul] at htop
  have hoffset : s.top - slotSize = xs.length * slotSize := by omega
  have htop_le : s.top ≤ s.size := h.top_le
  have hend : s.base + xs.length * slotSize + slotSize ≤ s.base + s.size := by omega
  refine ⟨by omega, ?_⟩
  rw [hoffset]
  exact (h.owns.getSlot List.mem_cons_self (Nat.le_add_right _ _) hend).trans
    (congrArg _ (slots_pop h.slots).2)

/-- Below the newest value are the others. -/
theorem Carries.below {v : Int64} (h : Carries others start (xs ++ [v]) (s, a)) :
    Carries others start xs ({ s with top := s.top - slotSize }, a) :=
  ⟨h.owns, h.spares, h.frames, h.depth, (Nat.sub_le _ _).trans h.top_le,
    Nat.dvd_sub h.whole (Nat.dvd_refl _), (slots_pop h.slots).1⟩

/-- A pop takes the value from the top. What becomes of the stack is then left to the shrinking. -/
theorem Carries.ends_pop {v : Int64} (h : Carries others start (xs ++ [v]) (s, a)) {size : Nat}
    (hsize : s.size - growBytes = size) {M : Stack × Arena → Prop}
    (hshrink : s.top - slotSize + 2 * growBytes < s.size ∧ s.initialSize ≤ size →
      Ends (TenantM.attempt (Stack.resize size) ({ s with top := s.top - slotSize }, a))
        (fun _ => M) (fun _ _ => False))
    (hkeep : ¬ (s.top - slotSize + 2 * growBytes < s.size ∧ s.initialSize ≤ size) →
      M ({ s with top := s.top - slotSize }, a)) :
    Ends (Stack.pop (s, a)) (fun w t => w = v ∧ M t) (fun _ _ => False) := by
  obtain ⟨htop, hget⟩ := h.getSlot_top
  have hpopped := h.below
  rw [Stack.pop]
  refine TenantM.ends_self ?_
  rw [if_neg (Nat.not_lt.2 htop)]
  refine Ends.of_ok rfl (TenantM.ends_self (Ends.of_ok (hpopped.within hpopped.top_le) ?_))
  refine Ends.of_ok (TenantM.ask_of_ok hget) ?_
  dsimp only
  rw [hsize]
  exact Ends.optional (M := M) hshrink hkeep fun t ht => ⟨rfl, ht⟩

theorem Carries.pop {v : Int64} (h : Carries others start (xs ++ [v]) (s, a)) :
    Ends (Stack.pop (s, a)) (fun w t => w = v ∧ Carries others start xs t) (fun _ _ => False) := by
  have hpopped := h.below
  obtain ⟨size, hsize⟩ : ∃ size, s.size - growBytes = size := ⟨_, rfl⟩
  refine h.ends_pop hsize (fun hslack => ?_) fun _ => hpopped
  -- The region shrinks by less than what is unused.
  have hunused : s.top - slotSize + 2 * growBytes < s.size := hslack.1
  have hfits : s.top - slotSize ≤ size := by omega
  exact hpopped.attempt_resize hfits (by omega)

theorem Carries.pop_nil (h : Carries others start [] (s, a)) :
    Stack.pop (s, a) = .error .stackUnderflow (s, a) := by
  have htop : s.top = 0 := h.length_eq.trans (Nat.zero_mul _)
  simp only [Stack.pop, TenantM.self, bind, EStateM.bind, htop]
  rfl

theorem Carries.peek {v : Int64} (h : Carries others start (xs ++ [v]) (s, a)) :
    Stack.peek (s, a) = .ok v (s, a) := by
  obtain ⟨htop, hget⟩ := h.getSlot_top
  have htop_le : s.top ≤ s.size := h.top_le
  have hwithin := h.within ((Nat.sub_le s.top slotSize).trans htop_le)
  have hask : TenantM.ask Fault.memory (·.getSlot (s.base + (s.top - slotSize))) (s, a) =
      .ok v (s, a) := TenantM.ask_of_ok hget
  simp only [Stack.peek, TenantM.self, bind, EStateM.bind, if_neg (Nat.not_lt.2 htop), hwithin,
    hask]

theorem Carries.peek_nil (h : Carries others start [] (s, a)) :
    Stack.peek (s, a) = .error .stackUnderflow (s, a) := by
  have htop : s.top = 0 := h.length_eq.trans (Nat.zero_mul _)
  simp only [Stack.peek, TenantM.self, bind, EStateM.bind, htop]
  rfl

/-! ### Frames -/

variable {regions : List (Nat × Nat)} {region depth : Nat}

/-- The newest frame comes first. -/
theorem returns_succ (hframes : s.frames = some region) (hdepth : s.depth = depth + 1) :
    s.returns a = returnOf region a depth :: ({ s with depth } : Stack).returns a := by
  simp only [returns, hframes, Option.elim_some, hdepth, List.range_succ, List.map_append,
    List.map_singleton, List.reverse_append, List.reverse_singleton, List.singleton_append]

theorem returns_of_depth_eq_zero (hdepth : s.depth = 0) : s.returns a = [] := by
  rw [returns, hdepth]
  cases s.frames <;> rfl

/-- The slots of the frames that can be open all have addresses. -/
theorem frameSlot_eq (ha : a.Owns regions) (hframes : s.frames = some region)
    (hregion : (region, maxFrames * frameSize) ∈ regions) (hdepth : depth < maxFrames) {slot : Nat}
    (hslot : slot ≤ frameLocals) :
    frameSlot depth slot (s, a) =
      .ok (region + (depth * frameSize + slot * slotSize)) (s, a) := by
  have hend := frame_end_le hdepth
  have hadd : Address.add? region (depth * frameSize + slot * slotSize) =
      some (region + (depth * frameSize + slot * slotSize)) := by
    refine ha.add? hregion ?_
    show depth * frameSize + slot * slotSize ≤ maxFrames * frameSize
    simp only [frameSize, slotSize, frameLocals, maxFrames] at hslot hend ⊢
    omega
  simp only [frameSlot, TenantM.self, bind, EStateM.bind, hframes, within, hadd]
  rfl

/-- The cursor of the newest frame is given. -/
theorem peekFrame_eq (ha : a.Owns regions) (hframes : s.frames = some region)
    (hregion : (region, maxFrames * frameSize) ∈ regions) (hdepth : s.depth = depth + 1)
    (hle : s.depth ≤ maxFrames) :
    peekFrame (s, a) = .ok (returnOf region a depth) (s, a) := by
  have hlt : depth < maxFrames := by omega
  have hend := frame_end_le hlt
  have hslot : slotSize ≤ frameSize := by decide
  have hget : a.getSlot (region + depth * frameSize) =
      .ok (slotOfBytes (a.store.read (region + depth * frameSize) slotSize)) := by
    refine ha.getSlot hregion (Nat.le_add_right _ _) ?_
    show region + depth * frameSize + slotSize ≤ region + maxFrames * frameSize
    omega
  have hslotOf := frameSlot_eq ha hframes hregion hlt (Nat.zero_le _)
  rw [Nat.zero_mul, Nat.add_zero] at hslotOf
  have hask : TenantM.ask Fault.memory (·.getSlot (region + depth * frameSize)) (s, a) =
      .ok (slotOfBytes (a.store.read (region + depth * frameSize) slotSize)) (s, a) :=
    TenantM.ask_of_ok hget
  simp only [peekFrame, TenantM.self, bind, EStateM.bind, hdepth, Nat.add_one_ne_zero, if_false,
    Nat.add_sub_cancel, hslotOf, hask]
  rfl

/-- The newest frame is closed, and its cursor given. -/
theorem popFrame_eq (ha : a.Owns regions) (hframes : s.frames = some region)
    (hregion : (region, maxFrames * frameSize) ∈ regions) (hdepth : s.depth = depth + 1)
    (hle : s.depth ≤ maxFrames) :
    popFrame (s, a) = .ok (returnOf region a depth) ({ s with depth }, a) := by
  simp only [popFrame, bind, EStateM.bind, peekFrame_eq ha hframes hregion hdepth hle,
    TenantM.modifySelf, hdepth, Nat.add_sub_cancel]
  rfl

end Stack

end BytecodeKernel
