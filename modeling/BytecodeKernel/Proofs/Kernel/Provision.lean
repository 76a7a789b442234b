import BytecodeKernel.Proofs.Kernel.Reachable
import BytecodeKernel.Proofs.Memory.Reservation
/-!
Whether there is room for a new process. One reservation is made for its heap and its stack, and
then both are allocated where they first fit. The stack is never smaller than one slot and its
headroom, but the reservation has the size that the settings give for it. Where this is less, the
two need not fit into what was reserved; then it depends on what else is free.
-/

namespace BytecodeKernel

namespace Blocks

variable {b after : Blocks} {size addr n : Nat}

/-- Once a block was put at the start of a free range, some range still has room for a second one.
-/
def LeavesRoom (b : Blocks) (size addr n : Nat) : Prop :=
  ∃ r ∈ b.freeRanges, r.1 + (if r.1 = addr then size else 0) + n ≤ r.2

instance (b : Blocks) (size addr n : Nat) : Decidable (b.LeavesRoom size addr n) :=
  inferInstanceAs (Decidable (∃ r ∈ b.freeRanges, _))

/-- The free ranges after an allocation are those before it, the one it was made in without its
beginning. -/
theorem exists_fit_iff_leavesRoom (h : Segment.Tidy b.segments)
    (hallocate : b.allocate size = .ok (addr, after)) (hn : 0 < n) :
    (∃ r ∈ after.freeRanges, r.1 + n ≤ r.2) ↔ b.LeavesRoom size addr n := by
  obtain ⟨hsize, offset, hcarve, rfl, horigin⟩ := allocate_eq_ok hallocate
  obtain ⟨front, m, back, hsplit, -, hle, rfl, hafter⟩ := Segment.carve?_eq_some hcarve
  let x := b.origin + Segment.extent front
  have hbefore : b.freeRanges = Segment.freeRanges b.origin front ++
      (x, x + m) :: Segment.freeRanges (x + m) back := by
    rw [freeRanges, hsplit, Segment.freeRanges_append]
    rfl
  have hranges : after.freeRanges = Segment.freeRanges b.origin front ++
      ((if m = size then [] else [(x + size, x + m)]) ++ Segment.freeRanges (x + m) back) := by
    rw [freeRanges, hafter, horigin, Segment.freeRanges_append]
    split
    · rename_i heq
      rw [heq]
      rfl
    · simp [Segment.freeRanges, x, Nat.add_assoc, Nat.add_sub_cancel' hle]
  have hfront : ∀ r ∈ Segment.freeRanges b.origin front, r.1 ≠ x := fun r hr => by
    rw [hsplit] at h
    have hpos := Segment.freeRanges_pos h.append_left hr
    have hend := (Segment.end_le_of_mem_freeRanges hr).2
    omega
  have hback : ∀ r ∈ Segment.freeRanges (x + m) back, r.1 ≠ x := fun r hr => by
    have hstart := Segment.le_start_of_mem_freeRanges hr
    omega
  rw [LeavesRoom, hranges, hbefore]
  constructor
  · rintro ⟨r, hr, hfit⟩
    rcases List.mem_append.1 hr with hr | hr
    · exact ⟨r, List.mem_append_left _ hr, by rwa [if_neg (hfront r hr)]⟩
    · rcases List.mem_append.1 hr with hr | hr
      · split at hr
        · contradiction
        · obtain rfl := List.mem_singleton.1 hr
          exact ⟨(x, x + m), by simp, by rwa [if_pos rfl]⟩
      · exact ⟨r, by simp [hr], by rwa [if_neg (hback r hr)]⟩
  · rintro ⟨r, hr, hfit⟩
    rcases List.mem_append.1 hr with hr | hr
    · rw [if_neg (hfront r hr)] at hfit
      exact ⟨r, List.mem_append_left _ hr, hfit⟩
    · rcases List.mem_cons.1 hr with rfl | hr
      · rw [if_pos rfl] at hfit
        have hne : m ≠ size := by omega
        exact ⟨(x + size, x + m), by simp [hne], hfit⟩
      · rw [if_neg (hback r hr)] at hfit
        exact ⟨r, by simp [hr], hfit⟩

/-- What is left of a range that holds both is enough for the second one. -/
theorem leavesRoom_of_fit {r : Nat × Nat} (hr : r ∈ b.freeRanges) (hfit : r.1 + (size + n) ≤ r.2)
    (addr : Nat) : b.LeavesRoom size addr n := by
  refine ⟨r, hr, ?_⟩
  split <;> omega

end Blocks

/-- The size of the region that a stack of a given size is made with. -/
def Stack.regionSize (bytes : Nat) : Nat :=
  max bytes (growHeadroom + slotSize)

namespace Arena

variable {a after : Arena} {size addr n : Nat}

theorem exists_allocate_iff_leavesRoom (h : a.Sound)
    (hallocate : a.allocate size = .ok (addr, after)) (hn : 0 < n) :
    (∃ second later, after.allocate n = .ok (second, later)) ↔ a.blocks.LeavesRoom size addr n := by
  obtain ⟨blocks, hblocks, rfl⟩ := allocate_eq_ok hallocate
  rw [exists_allocate_iff, and_iff_right hn]
  exact Blocks.exists_fit_iff_leavesRoom h.tidy hblocks hn

/-- What was reserved is a free range as large as that. -/
theorem exists_fit_of_reserve {grew : Bool} (hsize : 0 < size)
    (h : a.reserve size = .ok (grew, after)) : ∃ r ∈ after.blocks.freeRanges, r.1 + size ≤ r.2 :=
  (exists_allocate_iff.1 (exists_allocate_of_reserve hsize.ne' h)).2

/-- Below the limit a reservation cannot fail. -/
theorem exists_reserve (h : a.capacity + size ≤ a.limit) :
    ∃ grew after, a.reserve size = .ok (grew, after) := by
  rw [reserve]
  split
  · exact ⟨_, _, rfl⟩
  · rw [if_neg (by omega)]
    exact ⟨_, _, rfl⟩

end Arena

namespace Kernel

variable {k : Kernel} {held : List (Nat × Nat)} {parent : Option Nat}

/-- A heap is allocated, and then a stack with at least the least size. -/
theorem context_create_eq {heapBytes stackBytes base : Nat} {a b : Arena}
    (hheap : a.allocate heapBytes = .ok (base, b)) :
    Context.create heapBytes stackBytes a =
      (b.allocate (Stack.regionSize stackBytes)).map fun (top, c) =>
        ({ heap := { base, size := heapBytes, blocks := .ofSize 1 heapBytes }
           stack := { base := top, size := Stack.regionSize stackBytes,
                      initialSize := Stack.regionSize stackBytes } }, c) := by
  simp only [Context.create, Heap.create, Stack.create, hheap, bind, Except.bind, pure, Except.pure]
  rw [← Stack.regionSize]
  cases b.allocate (Stack.regionSize stackBytes) <;> rfl

/-- Once the parent and the counter allow a process, only its context is in question. -/
theorem generate_eq (hid : k.1.nextId < k.1.settings.maxProcesses)
    (hparent : ∀ id, parent = some id → k.1.IsRegistered id) :
    generate parent k =
      match Context.create k.1.settings.heapBytes k.1.settings.stackBytes
          (roomFor k.1.settings k.2) with
      | .ok (context, b) => .ok k.1.nextId (k.1.entered parent context, b)
      | .error e => .error (.memory e) (k.1.counted, roomFor k.1.settings k.2) := by
  have hunder := generateUnder_eq parent k.1 k.2
  rw [if_neg (Nat.not_le.2 hid)] at hunder
  cases parent with
  | none => exact hunder
  | some id =>
    rw [generate_some_eq, if_pos (hparent id rfl)]
    exact hunder

/-- The room is there for what the settings say, for the arena can still grow by that. -/
theorem exists_fit_roomFor {s : Settings} {a : Arena} (ha : a.Sound)
    (hheap : 0 < s.heapBytes + s.stackBytes)
    (hroom : a.capacity + (s.heapBytes + s.stackBytes) ≤ a.limit) :
    (roomFor s a).Sound ∧
      ∃ r ∈ (roomFor s a).blocks.freeRanges, r.1 + (s.heapBytes + s.stackBytes) ≤ r.2 := by
  have hsmall : s.heapBytes + s.stackBytes ≤ addressLimit - 1 := by
    have hlimit := ha.limit_le
    simp only [Arena.maxCapacity] at hlimit
    omega
  obtain ⟨grew, after, hreserve⟩ := Arena.exists_reserve hroom
  have heq : roomFor s a = after := by
    rw [roomFor, Nat.min_eq_left hsmall, Arena.reserveOrKeep, hreserve]
  rw [heq]
  exact ⟨ha.reserve hreserve, Arena.exists_fit_of_reserve hheap hreserve⟩

/-- Where the arena could still grow by both regions of a process, its creation can fail for nothing
but a stack that is smaller than the least one. The heap is put where it first fits in what was
reserved. If there is still a free range for the stack then, the process is created, and otherwise
it is refused for want of memory. There always is if the stack has at least the least size. -/
theorem generate_with_room (h : Reachable held k) (hheap : 1 ≤ k.1.settings.heapBytes)
    (hid : k.1.nextId < k.1.settings.maxProcesses)
    (hparent : ∀ id, parent = some id → k.1.IsRegistered id)
    (hroom : k.2.capacity +
      (k.1.settings.heapBytes + Stack.regionSize k.1.settings.stackBytes) ≤ k.2.limit) :
    (growHeadroom + slotSize ≤ k.1.settings.stackBytes →
      ∃ k', generate parent k = .ok k.1.nextId k') ∧
    ∃ base, (roomFor k.1.settings k.2).blocks.FirstFit k.1.settings.heapBytes base ∧
      ((∃ k', generate parent k = .ok k.1.nextId k') ↔
        (roomFor k.1.settings k.2).blocks.LeavesRoom k.1.settings.heapBytes base
          (Stack.regionSize k.1.settings.stackBytes)) ∧
      ((∀ k', generate parent k ≠ .ok k.1.nextId k') →
        ∃ n, generate parent k =
          .error (.memory (.outOfMemory (Stack.regionSize k.1.settings.stackBytes) n))
            (k.1.counted, roomFor k.1.settings k.2)) := by
  have hsound : k.2.Sound := h.housed.owns.sound
  have hstack : k.1.settings.stackBytes ≤ Stack.regionSize k.1.settings.stackBytes :=
    Nat.le_max_left _ _
  have hpos : 0 < Stack.regionSize k.1.settings.stackBytes :=
    (by decide : 0 < growHeadroom + slotSize).trans_le (Nat.le_max_right _ _)
  obtain ⟨hready, r, hr, hfit⟩ :=
    exists_fit_roomFor (s := k.1.settings) hsound (by omega) (by omega)
  have hcreate := generate_eq hid hparent
  generalize roomFor k.1.settings k.2 = room at hready hr hcreate ⊢
  obtain ⟨base, b, hallocate⟩ : ∃ base b, room.allocate k.1.settings.heapBytes = .ok (base, b) :=
    Arena.exists_allocate_iff.2 ⟨hheap, r, hr, by omega⟩
  have hfirst : room.blocks.FirstFit k.1.settings.heapBytes base := by
    obtain ⟨blocks, hblocks, -⟩ := Arena.allocate_eq_ok hallocate
    exact Blocks.firstFit_of_allocate hblocks
  have hleaves := Arena.exists_allocate_iff_leavesRoom hready hallocate hpos
  have henough (hleast : growHeadroom + slotSize ≤ k.1.settings.stackBytes) :
      room.blocks.LeavesRoom k.1.settings.heapBytes base
        (Stack.regionSize k.1.settings.stackBytes) := by
    refine Blocks.leavesRoom_of_fit hr ?_ base
    rwa [Stack.regionSize, Nat.max_eq_left hleast]
  rw [context_create_eq hallocate] at hcreate
  cases hsecond : b.allocate (Stack.regionSize k.1.settings.stackBytes) with
  | ok result =>
    rw [hsecond] at hcreate
    have hmade : ∃ k', generate parent k = .ok k.1.nextId k' := ⟨_, hcreate⟩
    refine ⟨fun _ => hmade, base, hfirst, iff_of_true hmade ?_, fun hnone => ?_⟩
    · exact hleaves.1 ⟨result.1, result.2, hsecond⟩
    · exact absurd hcreate (hnone _)
  | error e =>
    rw [hsecond] at hcreate hleaves
    have hrefused : ¬ ∃ k', generate parent k = .ok k.1.nextId k' := by
      rintro ⟨k', hk'⟩
      rw [hcreate] at hk'
      contradiction
    have hfull := mt hleaves.2 fun ⟨_, _, hok⟩ => by contradiction
    refine ⟨fun hleast => absurd (henough hleast) hfull, base, hfirst,
      iff_of_false hrefused hfull, fun _ => ?_⟩
    rcases Arena.error_of_allocate hsecond with ⟨hzero, -⟩ | ⟨-, n, -, rfl⟩
    · exact absurd hzero hpos.ne'
    · exact ⟨n, hcreate⟩

/-- Stacks are to have less than the least size. -/
def slimSettings : Settings where
  arenaBytes := 128
  maxArenaBytes := 1000
  workers := 1
  priorityBudget := 1000
  heapBytes := 64
  stackBytes := 16
  maxProcesses := 4

def newSlimKernel : Kernel :=
  ({ settings := slimSettings
     workers := [{ priority := 1000 }]
     console := {} }, .withLimit 128 1000)

def slimKernel : Kernel :=
  performAll newSlimKernel [.generate none]

theorem reachable_slimKernel : Reachable [] slimKernel := by
  have hcreate : Kernel.create slimSettings = .ok newSlimKernel := rfl
  apply (Reachable.create hcreate).performAll
  simp [Op.IsBindImage]

/-- What is free at the end of the arena joins what was reserved, and both regions just fit. -/
theorem generate_with_room_of_slim :
    Reachable [] slimKernel ∧ slimKernel.1.settings.stackBytes < growHeadroom + slotSize ∧
      slimKernel.1.IsRegistered 0 ∧
      slimKernel.2.capacity + (64 + Stack.regionSize 16) ≤ slimKernel.2.limit ∧
      (roomFor slimKernel.1.settings slimKernel.2).blocks.freeRanges = [(105, 209)] ∧
      ∃ k', generate (some 0) slimKernel = .ok 1 k' := by
  have hregistered : slimKernel.1.IsRegistered 0 := by decide +kernel
  have hroom : slimKernel.2.capacity + (64 + Stack.regionSize 16) ≤ slimKernel.2.limit := by
    decide +kernel
  have hranges :
      (roomFor slimKernel.1.settings slimKernel.2).blocks.freeRanges = [(105, 209)] := by
    decide +kernel
  have hparent : ∀ id, some 0 = some id → slimKernel.1.IsRegistered id := by
    rintro id ⟨⟩
    exact hregistered
  obtain ⟨-, base, -, hiff, -⟩ := generate_with_room reachable_slimKernel (by decide +kernel)
    (by decide +kernel) hparent hroom
  refine ⟨reachable_slimKernel, by decide +kernel, hregistered, hroom, hranges, hiff.2 ?_⟩
  refine ⟨(105, 209), by rw [hranges]; exact List.mem_singleton_self _, ?_⟩
  split <;> decide +kernel

def shallowSettings : Settings where
  arenaBytes := 64
  maxArenaBytes := 4194304
  workers := 1
  priorityBudget := 1000
  heapBytes := 64
  stackBytes := 0
  maxProcesses := 64

def shallowKernel : Kernel :=
  ({ settings := shallowSettings
     workers := [{ priority := 1000 }]
     console := {} }, .withLimit 64 4194304)

/-- The heap of the first process takes all that there is, and the arena does not grow for a stack
of no size. -/
theorem generate_without_stack :
    Reachable [] shallowKernel ∧
      shallowKernel.1.nextId < shallowKernel.1.settings.maxProcesses ∧
      shallowKernel.2.capacity + (64 + Stack.regionSize 0) ≤ shallowKernel.2.limit ∧
      succeeds (generate none shallowKernel) = false := by
  have hcreate : Kernel.create shallowSettings = .ok shallowKernel := rfl
  exact ⟨.create hcreate, by decide +kernel, by decide +kernel, by decide +kernel⟩

end Kernel

end BytecodeKernel
