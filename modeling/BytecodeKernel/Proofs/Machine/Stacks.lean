import BytecodeKernel.Machine.Stack
import BytecodeKernel.Proofs.Memory.Tenancy
/-!
What a stack keeps to: the live blocks are its operand region, its frame region once that is taken,
and the regions of others, whose bytes are spared. Pushes and frames write at computed offsets, so
the invariant also bounds the operands by the size of the region and the frames by their number.
-/

namespace BytecodeKernel.Stack

def operandRegion (s : Stack) : Nat × Nat :=
  (s.base, s.size)

def regions (s : Stack) : List (Nat × Nat) :=
  s.operandRegion :: s.frames.toList.map fun region => (region, maxFrames * frameSize)

/-- The stack is at home beside regions of others, whose bytes are still those of `start`. -/
structure Home (others : List (Nat × Nat)) (start : Arena) (s : Stack × Arena) : Prop where
  owns : s.2.Owns (s.1.regions ++ others)
  spares : Arena.Spares others start s.2
  top_le : s.1.top ≤ s.1.size
  depth_le : s.1.depth ≤ maxFrames

variable {others : List (Nat × Nat)} {start : Arena}

theorem Home.writeOperands {s : Stack} {a : Arena} (hs : Home others start (s, a)) {addr : Nat}
    {bytes : List UInt8} (hle : s.base ≤ addr) (hend : addr + bytes.length ≤ s.base + s.size) :
    Home others start (s, { a with store := a.store.write addr bytes }) := by
  have hspares : Arena.Spares others a { a with store := a.store.write addr bytes } :=
    (hs.owns.spares_write (r := s.operandRegion) hle hend).subset fun r hr =>
      List.mem_append_right _ hr
  exact ⟨hs.owns.withStore _, hs.spares.trans hspares, hs.top_le, hs.depth_le⟩

theorem Home.writeFrames {s : Stack} {a : Arena} (hs : Home others start (s, a)) {region addr : Nat}
    {bytes : List UInt8} (hframes : s.frames = some region) (hle : region ≤ addr)
    (hend : addr + bytes.length ≤ region + maxFrames * frameSize) :
    Home others start (s, { a with store := a.store.write addr bytes }) := by
  have hregions : s.regions ++ others
      = s.operandRegion :: (region, maxFrames * frameSize) :: others := by
    simp [regions, hframes]
  have howns := (hregions ▸ hs.owns).perm (List.Perm.swap _ _ _)
  have hspares : Arena.Spares others a { a with store := a.store.write addr bytes } :=
    (howns.spares_write hle hend).subset fun r hr => List.mem_cons_of_mem _ hr
  exact ⟨hs.owns.withStore _, hs.spares.trans hspares, hs.top_le, hs.depth_le⟩

/-- A resize that succeeds changes nothing of the stack but its region, one that fails nothing. -/
theorem hoare_resize {s : Stack} {size : Nat} (hsize : s.top ≤ size) :
    Hoare (fun t => Home others start t ∧ t.1 = s) (resize size)
      (fun _ t => Home others start t ∧ ∃ base, t.1 = { s with base, size })
      (fun t => Home others start t ∧ t.1 = s) := by
  rw [resize]
  apply TenantM.hoare_self_bind
  apply Hoare.optional (M := fun t => Home others start t ∧ t.1 = s)
  · intro _
    refine TenantM.hoare_onArena ?_ fun _ _ _ hs _ => hs
    rintro t a grew b ⟨hs, rfl⟩ hreserve
    obtain ⟨howns, hstore, hlimit⟩ := hs.owns.reserve hreserve
    have hspares := hs.spares.trans (Arena.spares_of_store_eq hlimit hstore _)
    exact ⟨⟨howns, hspares, hs.top_le, hs.depth_le⟩, rfl⟩
  · exact fun _ _ hs => hs
  · -- Between the two calls both regions are live.
    refine Hoare.bind (Q := fun moved t => Arena.Owns t.2 ((moved, size) :: (s.regions ++ others)) ∧
      Arena.Spares others start t.2 ∧ s.depth ≤ maxFrames ∧ t.1 = s)
      (TenantM.hoare_onArena ?_ fun _ _ _ hs _ => hs) fun moved => ?_
    · rintro t a moved b ⟨hs, rfl⟩ hmove
      obtain ⟨howns, hspares⟩ := hs.owns.tryReallocate hmove
      have hothers : Arena.Spares others a b :=
        hspares.subset fun r hr => List.mem_append_right _ hr
      exact ⟨howns, hs.spares.trans hothers, hs.depth_le, rfl⟩
    · refine Hoare.bind (Q := fun _ t => Home others start ({ t.1 with base := moved, size }, t.2) ∧
        t.1 = s) (TenantM.hoare_updateArena ?_ ?_) fun _ => ?_
      · rintro t a b ⟨howns, hspares, hdepth, rfl⟩ hfree
        obtain ⟨freed, hfreed, hrest, hstore, hlimit⟩ := (howns.perm (List.Perm.swap _ _ _)).free
        obtain rfl : freed = b := Except.ok.inj (hfreed.symm.trans hfree)
        have hother := hspares.trans (Arena.spares_of_store_eq hlimit hstore _)
        exact ⟨⟨hrest, hother, hsize, hdepth⟩, rfl⟩
      · rintro t a e ⟨howns, -⟩ hfree
        obtain ⟨freed, hfreed, -⟩ := (howns.perm (List.Perm.swap _ _ _)).free
        rw [hfreed] at hfree
        contradiction
      · exact TenantM.hoare_modifySelf fun t a hs => ⟨hs.1, moved, hs.2 ▸ rfl⟩

theorem hoare_attempt_resize {E : Stack × Arena → Prop} {size : Nat} :
    Hoare (fun t => Home others start t ∧ t.1.top ≤ size) (TenantM.attempt (resize size))
      (fun _ => Home others start) E := by
  intro t ht
  have hresize : Hoare (fun u => Home others start u ∧ u.1 = t.1) (resize size)
      (fun _ => Home others start) (Home others start) :=
    (hoare_resize ht.2).weaken (fun _ h => h) (fun _ _ h => h.1) fun _ h => h.1
  exact TenantM.hoare_attempt hresize t ⟨ht.1, rfl⟩

theorem hoare_within {P E : Stack × Arena → Prop} (region offset : Nat) (herror : ∀ t, P t → E t) :
    Hoare P (within region offset) (fun addr t => P t ∧ addr = region + offset) E := by
  rw [within, Address.add?]
  split
  · rename_i addr hadd
    obtain ⟨-, rfl⟩ : _ ∧ region + offset = addr := by simpa using hadd
    exact Hoare.pure fun t ht => ⟨ht, rfl⟩
  · exact Hoare.throw herror

theorem length_slotBytes (v : Int64) : (slotBytes v).length = slotSize :=
  BigEndian.length_encode 8 _

theorem preserves_push (v : Int64) : Preserves (Home others start) (push v) := by
  rw [push]
  refine Hoare.bind TenantM.hoare_self fun s => ?_
  apply Hoare.optional (M := fun t => Home others start t ∧ t.1.top + slotSize ≤ t.1.size)
  · -- Either the region has grown by more than a slot, or the push has failed.
    intro _
    refine Hoare.of_pre fun t ht => ?_
    obtain ⟨ht, rfl⟩ := ht
    refine (hoare_resize (Nat.le_add_right_of_le ht.top_le)).weaken (fun _ h => h) ?_ fun _ h => h.1
    rintro - u ⟨hu, base, heq⟩
    refine ⟨hu, ?_⟩
    have htop := ht.top_le
    simp only [heq, slotSize, growBytes]
    omega
  · rintro hroom t ⟨ht, rfl⟩
    exact ⟨ht, Nat.not_lt.1 hroom⟩
  · refine Hoare.bind TenantM.hoare_self fun s => ?_
    refine Hoare.bind (hoare_within _ _ fun t ht => ht.1.1) fun addr => ?_
    refine Hoare.bind
      (Q := fun _ t => Home others start t ∧ t.1.top + slotSize ≤ t.1.size ∧ t.1 = s)
      (TenantM.hoare_updateArena ?_ fun _ _ _ ht _ => ht.1.1.1) fun _ => ?_
    · rintro t a b ⟨⟨⟨ht, hroom⟩, rfl⟩, rfl⟩ hset
      obtain ⟨-, rfl⟩ := Arena.write_eq_ok hset
      refine ⟨ht.writeOperands (Nat.le_add_right _ _) ?_, hroom, rfl⟩
      rw [length_slotBytes, Nat.add_assoc]
      exact Nat.add_le_add_left hroom _
    · refine Hoare.bind (Q := fun _ => Home others start) (TenantM.hoare_modifySelf ?_) fun _ => ?_
      · rintro t a ⟨ht, hroom, rfl⟩
        exact ⟨ht.owns, ht.spares, hroom, ht.depth_le⟩
      · refine Hoare.bind TenantM.hoare_self fun t => Hoare.ite (fun _ => ?_) fun _ => ?_
        · apply hoare_attempt_resize.pre
          rintro u ⟨hu, rfl⟩
          exact ⟨hu, Nat.le_add_right_of_le hu.top_le⟩
        · exact Hoare.pure fun u hu => hu.1

theorem preserves_pop : Preserves (Home others start) pop := by
  rw [pop]
  refine Hoare.bind TenantM.hoare_self fun s => ?_
  apply Hoare.optional (M := fun t => Home others start t ∧ t.1 = s)
  · exact fun _ => Hoare.throw fun t ht => ht.1
  · exact fun _ _ ht => ht
  · refine Hoare.bind (Q := fun _ => Home others start) (TenantM.hoare_modifySelf ?_) fun _ => ?_
    · rintro t a ⟨ht, rfl⟩
      exact ⟨ht.owns, ht.spares, (Nat.sub_le _ _).trans ht.top_le, ht.depth_le⟩
    · refine Hoare.bind TenantM.hoare_self fun t => ?_
      refine Hoare.bind (hoare_within _ _ fun u hu => hu.1) fun addr => ?_
      refine Hoare.bind (TenantM.hoare_ask _ _ fun u hu => hu.1.1) fun v => ?_
      apply Hoare.optional (M := Home others start)
      · -- The region shrinks by less than what is unused, so the operands still fit.
        rintro ⟨hunused, -⟩
        refine hoare_attempt_resize.pre ?_
        rintro u ⟨⟨hu, rfl⟩, -⟩
        refine ⟨hu, ?_⟩
        simp only [growBytes] at hunused ⊢
        omega
      · exact fun _ _ hu => hu.1.1
      · exact Preserves.pure v

theorem preserves_peek : Preserves (Home others start) peek := by
  rw [peek]
  refine .bind TenantM.preserves_self fun s => ?_
  apply Preserves.optional (Preserves.throw _)
  refine Hoare.bind (hoare_within _ _ fun t ht => ht) fun addr => ?_
  exact (TenantM.preserves_ask _ _).pre fun t ht => ht.1

theorem hoare_frameRegion {s : Stack} :
    Hoare (fun t => Home others start t ∧ t.1 = s) frameRegion
      (fun region t => Home others start t ∧ t.1 = { s with frames := some region })
      (Home others start) := by
  rw [frameRegion]
  apply TenantM.hoare_self_bind
  split
  · rename_i region hframes
    refine Hoare.pure fun t ht => ⟨ht.1, ?_⟩
    rw [ht.2, ← hframes]
  · rename_i hframes
    -- The region is live before the stack has it on record.
    refine Hoare.bind (Q := fun region t =>
      Home others start ({ t.1 with frames := some region }, t.2) ∧ t.1 = s)
      (TenantM.hoare_onArena ?_ fun _ _ _ ht _ => ht.1) fun region => ?_
    · rintro t a region b ⟨ht, rfl⟩ hallocate
      obtain ⟨howns, hstore, hlimit⟩ := ht.owns.allocate hallocate
      have hspares := ht.spares.trans (Arena.spares_of_store_eq hlimit hstore _)
      refine ⟨⟨?_, hspares, ht.top_le, ht.depth_le⟩, rfl⟩
      have hregions : t.regions = [t.operandRegion] := by
        change t.frames = none at hframes
        simp [regions, hframes]
      rw [hregions] at howns
      exact howns.perm (List.Perm.swap _ _ _)
    · refine Hoare.bind (Q := fun _ t => Home others start t ∧
        t.1 = { s with frames := some region }) (TenantM.hoare_modifySelf ?_) fun _ => ?_
      · rintro t a ⟨ht, rfl⟩
        exact ⟨ht, rfl⟩
      · exact Hoare.pure fun t ht => ht

theorem hoare_frameSlot {s : Stack} {E : Stack × Arena → Prop} (depth slot : Nat)
    (herror : ∀ t, Home others start t → E t) :
    Hoare (fun t => Home others start t ∧ t.1 = s) (frameSlot depth slot)
      (fun addr t => (Home others start t ∧ t.1 = s) ∧
        ∃ region, s.frames = some region ∧
          addr = region + (depth * frameSize + slot * slotSize)) E := by
  rw [frameSlot]
  apply TenantM.hoare_self_bind
  split
  · rename_i region hframes
    refine (hoare_within _ _ fun t ht => herror t ht.1).weaken (fun _ h => h) ?_ fun _ h => h
    exact fun addr t ht => ⟨ht.1, region, hframes, ht.2⟩
  · exact Hoare.throw fun t ht => herror t ht.1

/-- The frames that can be open all lie in the region. -/
theorem frame_end_le {depth : Nat} (h : depth < maxFrames) :
    depth * frameSize + frameSize ≤ maxFrames * frameSize := by
  rw [← Nat.succ_mul]
  exact Nat.mul_le_mul_right _ h

theorem preserves_pushFrame (cursor : Nat) : Preserves (Home others start) (pushFrame cursor) := by
  rw [pushFrame]
  refine Hoare.bind TenantM.hoare_self fun s => ?_
  apply Hoare.optional (M := fun t => (Home others start t ∧ t.1 = s) ∧ s.depth < maxFrames)
  · exact fun _ => Hoare.throw fun t ht => ht.1
  · exact fun hdepth t ht => ⟨ht, Nat.not_le.1 hdepth⟩
  · refine Hoare.of_pre fun _ hpre => ?_
    have hdepth := hpre.2
    refine Hoare.bind (hoare_frameRegion.pre fun t ht => ht.1) fun region => ?_
    refine Hoare.bind (hoare_frameSlot _ _ fun _ ht => ht) fun addr => ?_
    have hend := frame_end_le hdepth
    refine Hoare.bind (Q := fun _ t => (Home others start t ∧
      t.1 = { s with frames := some region }) ∧ addr = region + s.depth * frameSize)
      (TenantM.hoare_updateArena ?_ fun _ _ _ ht _ => ht.1.1) fun _ => ?_
    · rintro t a b ⟨⟨ht, rfl⟩, found, hfound, rfl⟩ hwrite
      obtain rfl : region = found := Option.some.inj hfound
      obtain ⟨-, rfl⟩ := Arena.write_eq_ok hwrite
      refine ⟨⟨ht.writeFrames rfl (Nat.le_add_right _ _) ?_, rfl⟩, by simp⟩
      rw [List.length_replicate]
      omega
    · refine Hoare.bind (Q := fun _ t => Home others start t ∧
        t.1 = { s with frames := some region })
        (TenantM.hoare_updateArena ?_ fun _ _ _ ht _ => ht.1.1) fun _ => ?_
      · rintro t a b ⟨⟨ht, rfl⟩, rfl⟩ hset
        obtain ⟨-, rfl⟩ := Arena.write_eq_ok hset
        refine ⟨ht.writeFrames rfl (Nat.le_add_right _ _) ?_, rfl⟩
        have hslot : slotSize ≤ frameSize := by decide
        rw [length_slotBytes]
        omega
      · apply TenantM.hoare_modifySelf
        rintro t a ⟨ht, rfl⟩
        exact ⟨ht.owns, ht.spares, ht.top_le, hdepth⟩

theorem preserves_frameSlot {P : Stack × Arena → Prop} (depth slot : Nat) :
    Preserves P (frameSlot depth slot) := by
  rw [frameSlot]
  refine .bind TenantM.preserves_self fun s => ?_
  split
  · exact (hoare_within _ _ fun t ht => ht).weaken (fun _ h => h) (fun _ _ h => h.1) fun _ h => h
  · exact .throw _

theorem preserves_peekFrame {P : Stack × Arena → Prop} : Preserves P peekFrame := by
  rw [peekFrame]
  refine .bind TenantM.preserves_self fun s => ?_
  apply Preserves.optional (Preserves.throw _)
  refine .bind (preserves_frameSlot _ _) fun addr => ?_
  exact .bind (TenantM.preserves_ask _ _) fun v => .pure _

theorem preserves_popFrame : Preserves (Home others start) popFrame := by
  refine .bind preserves_peekFrame fun cursor => ?_
  refine .bind (TenantM.hoare_modifySelf fun s a hs => ?_) fun _ => .pure _
  exact ⟨hs.owns, hs.spares, hs.top_le, (Nat.sub_le _ _).trans hs.depth_le⟩

/-- The locals of an open frame all lie in the region. -/
theorem local_end_le {depth index : Nat} (hdepth : depth ≠ 0) (hle : depth ≤ maxFrames)
    (hindex : index < frameLocals) :
    (depth - 1) * frameSize + (1 + index) * slotSize + slotSize ≤ maxFrames * frameSize := by
  have hframe := frame_end_le (show depth - 1 < maxFrames by omega)
  simp only [frameLocals] at hindex
  have hslot : (1 + index) * slotSize + slotSize ≤ frameSize := by
    simp only [slotSize, frameSize, frameLocals]
    omega
  omega

theorem hoare_localSlot {s : Stack} {index : Nat} :
    Hoare (fun t => Home others start t ∧ t.1 = s) (localSlot index)
      (fun addr t => (Home others start t ∧ t.1 = s) ∧ ∃ region, s.frames = some region ∧
        region ≤ addr ∧ addr + slotSize ≤ region + maxFrames * frameSize)
      (Home others start) := by
  rw [localSlot]
  apply Hoare.optional (M := fun t => (Home others start t ∧ t.1 = s) ∧ index < frameLocals)
  · exact fun _ => Hoare.throw fun t ht => ht.1
  · exact fun hindex t ht => ⟨ht, Nat.not_le.1 hindex⟩
  · refine Hoare.of_pre fun _ hpre => ?_
    obtain ⟨⟨hs, rfl⟩, hindex⟩ := hpre
    refine (TenantM.hoare_self_bind ?_).pre fun t ht => ht.1
    refine Hoare.of_pre fun t ht => ?_
    apply Hoare.optional (M := fun t => (Home others start t ∧ t.1 = _) ∧ t.1.depth ≠ 0)
    · exact fun _ => Hoare.throw fun t ht => ht.1
    · exact fun hdepth t ht => ⟨ht, by rwa [ht.2]⟩
    · refine Hoare.of_pre fun u hu => ?_
      obtain ⟨⟨hu, heq⟩, hdepth⟩ := hu
      have hend := local_end_le hdepth hu.depth_le hindex
      rw [heq] at hend
      refine (hoare_frameSlot _ _ fun _ h => h).weaken (fun _ h => h.1) ?_ fun _ h => h
      rintro addr v ⟨hv, region, hframes, rfl⟩
      refine ⟨hv, region, hframes, Nat.le_add_right _ _, ?_⟩
      omega

theorem preserves_getLocal (index : Nat) : Preserves (Home others start) (getLocal index) := by
  intro s hs
  refine Hoare.bind hoare_localSlot (fun addr => ?_) s ⟨hs, rfl⟩
  exact (TenantM.preserves_ask _ _).pre fun t ht => ht.1.1

theorem preserves_setLocal (index : Nat) (v : Int64) :
    Preserves (Home others start) (setLocal index v) := by
  intro s hs
  refine Hoare.bind hoare_localSlot (fun addr => ?_) s ⟨hs, rfl⟩
  refine TenantM.hoare_updateArena ?_ fun _ _ _ ht _ => ht.1.1
  rintro t a b ⟨⟨ht, rfl⟩, region, hframes, hle, hend⟩ hset
  obtain ⟨-, rfl⟩ := Arena.write_eq_ok hset
  apply ht.writeFrames hframes hle
  rw [length_slotBytes]
  exact hend

theorem home_of_create {size : Nat} {a after : Arena} {s : Stack} (ha : a.Owns others)
    (hcreate : create size a = .ok (s, after)) : Home others a (s, after) := by
  obtain ⟨⟨base, fresh⟩, hallocate, hpair⟩ := ok_of_bind hcreate
  cases hpair
  obtain ⟨howns, hstore, hlimit⟩ := ha.allocate hallocate
  exact ⟨howns, Arena.spares_of_store_eq hlimit hstore _, Nat.zero_le _, Nat.zero_le _⟩

theorem Home.release {s : Stack} {a : Arena} (hs : Home others start (s, a)) :
    (s.release a).Owns others ∧ Arena.Spares others start (s.release a) := by
  obtain ⟨howns, hstore, hlimit⟩ := hs.owns.discard
  have hspares := hs.spares.trans (Arena.spares_of_store_eq hlimit hstore others)
  rw [Stack.release]
  cases hframes : s.frames with
  | none =>
    simp only [hframes, Option.toList_none, List.map_nil] at howns
    exact ⟨howns, hspares⟩
  | some region =>
    simp only [hframes, Option.toList_some, List.map_cons, List.map_nil] at howns
    obtain ⟨hrest, hstore', hlimit'⟩ := howns.discard
    exact ⟨hrest, hspares.trans (Arena.spares_of_store_eq hlimit' hstore' others)⟩

/-- What the owner of a stack can do that goes through the arena. -/
inductive Call where
  | push (v : Int64)
  | pop
  | peek
  | pushFrame (cursor : Nat)
  | peekFrame
  | popFrame
  | getLocal (index : Nat)
  | setLocal (index : Nat) (v : Int64)

def Call.action : Call → StackM Unit
  | push v => Stack.push v
  | pop => do let _ ← Stack.pop
  | peek => do let _ ← Stack.peek
  | pushFrame cursor => Stack.pushFrame cursor
  | peekFrame => do let _ ← Stack.peekFrame
  | popFrame => do let _ ← Stack.popFrame
  | getLocal index => do let _ ← Stack.getLocal index
  | setLocal index v => Stack.setLocal index v

theorem preserves_action (call : Call) : Preserves (Home others start) call.action := by
  cases call with
  | push v => exact preserves_push v
  | pop => exact .bind preserves_pop fun _ => .pure _
  | peek => exact .bind preserves_peek fun _ => .pure _
  | pushFrame cursor => exact preserves_pushFrame cursor
  | peekFrame => exact .bind preserves_peekFrame fun _ => .pure _
  | popFrame => exact .bind preserves_popFrame fun _ => .pure _
  | getLocal index => exact .bind (preserves_getLocal index) fun _ => .pure _
  | setLocal index v => exact preserves_setLocal index v

end BytecodeKernel.Stack
