import BytecodeKernel.Kernel.Process
import BytecodeKernel.Proofs.Machine.Shapes
/-!
What the heap and the stack of a process look like at all times. The table of a heap tiles its
region, and a stack consists of whole slots and has no frames, for no instruction opens one. A
process that has not run yet has a heap without blocks and no operands.
-/

namespace BytecodeKernel

/-! ### Heaps -/

/-- The table is in normal form and covers the region from heap address one on. -/
structure Heap.Tiled (h : Heap) : Prop where
  origin : h.blocks.origin = 1
  tidy : Segment.Tidy h.blocks.segments
  extent : h.blocks.extent = h.size

namespace Heap

theorem Tiled.extend {h : Heap} (ht : h.Tiled) (base size : Nat) :
    Tiled { base, size := h.size + size, blocks := h.blocks.extend size } where
  origin := (Blocks.origin_extend _ _).trans ht.origin
  tidy := Blocks.tidy_extend ht.tidy size
  extent := (Blocks.extent_extend _ _).trans (congrArg (· + size) ht.extent)

theorem Tiled.allocate {h : Heap} (ht : h.Tiled) {size addr : Nat} {blocks : Blocks}
    (hallocate : h.blocks.allocate size = .ok (addr, blocks)) : Tiled { h with blocks } := by
  obtain ⟨-, -, -, -, horigin⟩ := Blocks.allocate_eq_ok hallocate
  exact ⟨horigin.trans ht.origin, Blocks.tidy_allocate ht.tidy hallocate,
    (Blocks.extent_of_allocate hallocate).trans ht.extent⟩

theorem Tiled.release {h : Heap} (ht : h.Tiled) {addr : Nat} {blocks : Blocks}
    (hrelease : h.blocks.release addr = .ok blocks) : Tiled { h with blocks } := by
  obtain ⟨offset, -, hvacate, horigin⟩ := Blocks.release_eq_ok hrelease
  exact ⟨horigin.trans ht.origin, ht.tidy.vacate? hvacate,
    (Blocks.extent_of_release hrelease).trans ht.extent⟩

theorem preserves_reserve_tiled (size : Nat) :
    Preserves (fun t : Heap × Arena => t.1.Tiled) (reserve size) := by
  rintro ⟨h, a⟩ ht
  rw [reserve]
  simp only
  by_cases hsmall : size ≤ h.blocks.largestFree ∨ addressLimit ≤ h.size + size
  · rw [if_pos hsmall]
    exact ht
  · rw [if_neg hsmall]
    cases (a.reserveOrKeep (h.size + size)).tryReallocate h.base (h.size + size) with
    | error e => exact ht
    | ok result => exact Tiled.extend ht _ size

theorem preserves_malloc_tiled (size : Nat) :
    Preserves (fun t : Heap × Arena => t.1.Tiled) (malloc size) := by
  refine .bind (preserves_reserve_tiled size) fun _ => Hoare.bind TenantM.hoare_self fun h => ?_
  split
  · rename_i addr blocks hallocate
    refine Hoare.bind (Q := fun _ (t : Heap × Arena) => t.1.Tiled) (TenantM.hoare_modifySelf ?_)
      fun _ => Preserves.pure addr
    rintro t a ⟨ht, rfl⟩
    exact ht.allocate hallocate
  · exact Hoare.throw fun t ht => ht.1

theorem preserves_copyIn_tiled (dst src length : Nat) :
    Preserves (fun t : Heap × Arena => t.1.Tiled) (do
      let h ← TenantM.self
      TenantM.updateArena id fun a => h.copyIn a dst src length) := by
  refine .bind TenantM.preserves_self fun h => ?_
  exact TenantM.hoare_updateArena (fun _ _ _ ht _ => ht) fun _ _ _ ht _ => ht

theorem preserves_calloc_tiled (size length : Nat) :
    Preserves (fun t : Heap × Arena => t.1.Tiled) (calloc size length) := by
  refine .optional (.throw _) (.bind (preserves_malloc_tiled size) fun addr => ?_)
  refine .bind TenantM.preserves_self fun h => ?_
  split
  · refine .bind ?_ fun _ => .pure _
    exact TenantM.hoare_updateArena (fun _ _ _ ht _ => ht) fun _ _ _ ht _ => ht
  · exact .pure _

theorem preserves_free_tiled (addr : Nat) :
    Preserves (fun t : Heap × Arena => t.1.Tiled) (free addr) := by
  refine Hoare.bind TenantM.hoare_self fun h => ?_
  split
  · rename_i blocks hrelease
    refine TenantM.hoare_modifySelf ?_
    rintro t a ⟨ht, rfl⟩
    exact ht.release hrelease
  · exact Hoare.throw fun t ht => ht.1

/-- Whatever the owner of a heap does. -/
theorem preserves_action_tiled (call : Call) :
    Preserves (fun t : Heap × Arena => t.1.Tiled) call.action := by
  cases call with
  | malloc size => exact .bind (preserves_malloc_tiled size) fun _ => .pure _
  | calloc size length => exact .bind (preserves_calloc_tiled size length) fun _ => .pure _
  | free addr => exact preserves_free_tiled addr
  | write | setSigned =>
    refine .bind TenantM.preserves_self fun h => ?_
    exact TenantM.hoare_updateArena (fun _ _ _ ht _ => ht) fun _ _ _ ht _ => ht
  | copyIn dst src length => exact preserves_copyIn_tiled dst src length

theorem tiled_of_create {size : Nat} {a after : Arena} {h : Heap}
    (hcreate : create size a = .ok (h, after)) : h.Tiled ∧ h.blocks = .ofSize 1 h.size := by
  obtain ⟨⟨base, fresh⟩, -, hpair⟩ := ok_of_bind hcreate
  cases hpair
  exact ⟨⟨rfl, Blocks.tidy_ofSize _ _, Blocks.extent_ofSize _ _⟩, rfl⟩

end Heap

/-! ### Stacks -/

/-- The stack holds whole slots, and no frame was ever opened. -/
structure Stack.Plain (t : Stack) : Prop where
  frames : t.frames = none
  depth : t.depth = 0
  slots : slotSize ∣ t.top

namespace Stack

theorem Plain.regions_eq {t : Stack} (h : t.Plain) : t.regions = [t.operandRegion] := by
  rw [regions, h.frames]
  rfl

theorem isShape_plain : IsShape Plain where
  moved _ _ _ ht := ⟨ht.frames, ht.depth, ht.slots⟩
  pushed _ ht := ⟨ht.frames, ht.depth, Nat.dvd_add ht.slots (Nat.dvd_refl _)⟩
  popped _ _ ht := ⟨ht.frames, ht.depth, Nat.dvd_sub ht.slots (Nat.dvd_refl _)⟩
  returned _ ht := ⟨ht.frames, congrArg (· - 1) ht.depth, ht.slots⟩

theorem plain_of_create {size : Nat} {a after : Arena} {t : Stack}
    (hcreate : create size a = .ok (t, after)) : t.Plain ∧ t.top = 0 := by
  obtain ⟨⟨base, fresh⟩, -, hpair⟩ := ok_of_bind hcreate
  cases hpair
  exact ⟨⟨rfl, rfl, Nat.dvd_zero _⟩, rfl⟩

end Stack

/-! ### Contexts -/

/-- The state of a process between its quanta. -/
structure Context.Kept (c : Context) : Prop where
  tiled : c.heap.Tiled
  plain : c.stack.Plain
  top_le : c.stack.top ≤ c.stack.size
  fresh : c.cursor = none → c.heap.blocks = .ofSize 1 c.heap.size ∧ c.stack.top = 0

namespace Context

/-- The regions that a process computes in. -/
def regions (c : Context) : List (Nat × Nat) :=
  c.heap.region :: c.stack.regions

variable {c : Context} {regions : List (Nat × Nat)} {a after : Arena}

theorem Kept.regions_eq (h : c.Kept) : c.regions = [c.heap.region, c.stack.operandRegion] := by
  rw [Context.regions, h.plain.regions_eq]

theorem owns_of_create {heapBytes stackBytes : Nat} (ha : a.Owns regions)
    (hcreate : create heapBytes stackBytes a = .ok (c, after)) :
    after.Owns (c.regions ++ regions) ∧ c.Kept ∧ c.cursor = none ∧ after.store = a.store ∧
      after.limit = a.limit := by
  obtain ⟨⟨heap, b⟩, hheap, hrest⟩ := ok_of_bind hcreate
  obtain ⟨⟨stack, b'⟩, hstack, hpair⟩ := ok_of_bind hrest
  cases hpair
  obtain ⟨htiled, hblocks⟩ := Heap.tiled_of_create hheap
  obtain ⟨hplain, htop⟩ := Stack.plain_of_create hstack
  obtain ⟨⟨base, fresh⟩, hallocate, hpair⟩ := ok_of_bind hheap
  cases hpair
  obtain ⟨⟨base', fresh'⟩, hallocate', hpair⟩ := ok_of_bind hstack
  cases hpair
  obtain ⟨howns, hstore, hlimit⟩ := ha.allocate hallocate
  obtain ⟨howns', hstore', hlimit'⟩ := howns.allocate hallocate'
  refine ⟨howns'.perm (.swap _ _ _), ⟨htiled, hplain, Nat.zero_le _, fun _ => ⟨hblocks, htop⟩⟩,
    rfl, hstore'.trans hstore, hlimit'.trans hlimit⟩

theorem Kept.owns_release (h : c.Kept) (ha : a.Owns (c.regions ++ regions)) :
    (c.release a).Owns regions ∧ (c.release a).store = a.store ∧
      (c.release a).limit = a.limit := by
  rw [h.regions_eq] at ha
  obtain ⟨howns, hstore, hlimit⟩ := Arena.Owns.discard ha
  obtain ⟨howns', hstore', hlimit'⟩ := Arena.Owns.discard howns
  rw [release, Stack.release, h.plain.frames, Heap.release]
  exact ⟨howns', hstore'.trans hstore, hlimit'.trans hlimit⟩

end Context

end BytecodeKernel
