import BytecodeKernel.Proofs.Memory.Ends
/-!
Room that was made is there. A table that has been extended by some size, or whose largest free
block has it, holds a block of that size, so an allocation after a successful reservation cannot
fail, and neither can a move.
-/

namespace BytecodeKernel

namespace Segment

variable {segments : List Segment} {k size : Nat}

/-- Joining makes free segments larger, if anything. -/
theorem exists_free_join (s : Segment) (h : free k ∈ segments) :
    ∃ n, free n ∈ join s segments ∧ k ≤ n := by
  fun_cases join s segments with
  | case1 m n rest =>
    rcases List.mem_cons.1 h with heq | hrest
    · obtain rfl : k = n := Segment.free.inj heq
      exact ⟨m + k, List.mem_cons_self, Nat.le_add_left _ _⟩
    · exact ⟨k, List.mem_cons_of_mem _ hrest, Nat.le_refl _⟩
  | case2 => exact ⟨k, List.mem_cons_of_mem _ h, Nat.le_refl _⟩

theorem exists_free_foldr_join (segments : List Segment) (size : Nat) :
    ∃ n, free n ∈ segments.foldr join [.free size] ∧ size ≤ n := by
  induction segments with
  | nil => exact ⟨size, List.mem_singleton_self _, Nat.le_refl _⟩
  | cons s rest ih =>
    obtain ⟨k, hk, hle⟩ := ih
    obtain ⟨n, hn, hle'⟩ := exists_free_join s hk
    exact ⟨n, hn, hle.trans hle'⟩

theorem exists_free_of_le_max (hsize : size ≠ 0)
    (h : size ≤ (segments.map freeSize).foldl max 0) : ∃ n, free n ∈ segments ∧ size ≤ n := by
  have hmax : ∀ (rest : List Segment) (start : Nat), size ≤ (rest.map freeSize).foldl max start →
      size ≤ start ∨ ∃ n, free n ∈ rest ∧ size ≤ n := by
    intro rest
    induction rest with
    | nil => exact fun _ h => .inl h
    | cons s rest ih =>
      intro start h
      rcases ih _ h with hle | ⟨n, hn, hle⟩
      · cases s with
        | free k =>
          by_cases hk : size ≤ k
          · exact .inr ⟨k, List.mem_cons_self, hk⟩
          · simp only [freeSize] at hle
            exact .inl (by omega)
        | live k =>
          simp only [freeSize] at hle
          exact .inl (by omega)
      · exact .inr ⟨n, List.mem_cons_of_mem _ hn, hle⟩
  exact (hmax segments 0 h).resolve_left fun hle => hsize (Nat.le_zero.1 hle)

end Segment

namespace Blocks

variable {b : Blocks} {size : Nat}

theorem exists_allocate (hsize : size ≠ 0) (h : ∃ n, Segment.free n ∈ b.segments ∧ size ≤ n) :
    ∃ addr after, b.allocate size = .ok (addr, after) := by
  obtain ⟨n, hn, hle⟩ := h
  rw [allocate, if_neg hsize]
  cases hcarve : Segment.carve? size b.segments with
  | none => exact absurd (Segment.carve?_eq_none_iff.1 hcarve n hn) hle.not_gt
  | some result => exact ⟨_, _, rfl⟩

theorem le_largestFree (h : Segment.free size ∈ b.segments) :
    size ≤ b.largestFree := by
  have hmax : ∀ (sizes : List Nat) (start : Nat), (start ≤ sizes.foldl max start) ∧
      ∀ n ∈ sizes, n ≤ sizes.foldl max start := by
    intro sizes
    induction sizes with
    | nil => exact fun start => ⟨Nat.le_refl _, by simp⟩
    | cons n rest ih =>
      intro start
      obtain ⟨hstart, hrest⟩ := ih (max start n)
      refine ⟨(Nat.le_max_left _ _).trans hstart, fun k hk => ?_⟩
      rcases List.mem_cons.1 hk with rfl | hk
      · exact (Nat.le_max_right _ _).trans hstart
      · exact hrest k hk
  exact (hmax _ 0).2 _ (List.mem_map_of_mem (f := Segment.freeSize) h)

/-- Too large a block is refused. -/
theorem allocate_of_largestFree_lt (h : b.largestFree < size) :
    b.allocate size = .error (.outOfMemory size b.largestFree) := by
  have hcarve : Segment.carve? size b.segments = none :=
    Segment.carve?_eq_none_iff.2 fun k hk => (le_largestFree hk).trans_lt h
  rw [allocate, if_neg (by omega), hcarve]

theorem exists_allocate_of_le_largestFree (hsize : size ≠ 0) (h : size ≤ b.largestFree) :
    ∃ addr after, b.allocate size = .ok (addr, after) :=
  exists_allocate hsize (Segment.exists_free_of_le_max hsize h)

theorem exists_allocate_extend (hsize : size ≠ 0) (b : Blocks) :
    ∃ addr after, (b.extend size).allocate size = .ok (addr, after) := by
  refine exists_allocate hsize ?_
  rw [extend, if_neg hsize]
  exact Segment.exists_free_foldr_join b.segments size

end Blocks

namespace Arena

variable {a b : Arena} {addr old size : Nat} {grew : Bool}

/-- What was reserved can be allocated. -/
theorem exists_allocate_of_reserve (hsize : size ≠ 0) (h : a.reserve size = .ok (grew, b)) :
    ∃ addr after, b.allocate size = .ok (addr, after) := by
  have hblocks : ∃ addr after, b.blocks.allocate size = .ok (addr, after) := by
    rw [reserve] at h
    split at h
    · rename_i hle
      cases h
      exact Blocks.exists_allocate_of_le_largestFree hsize hle
    · split at h
      · contradiction
      · cases h
        exact Blocks.exists_allocate_extend hsize a.blocks
  obtain ⟨addr, after, hallocate⟩ := hblocks
  exact ⟨addr, _, by rw [allocate, hallocate]; rfl⟩

/-- A block can be moved to where room was reserved for it. -/
theorem Sound.exists_tryReallocate_of_reserve (ha : a.Sound) (hsize : size ≠ 0)
    (h : a.reserve size = .ok (grew, b)) (hold : (addr, old) ∈ b.blocks.liveBlocks) :
    ∃ moved after, b.tryReallocate addr size = .ok (moved, after) := by
  obtain ⟨moved, after, hallocate⟩ := exists_allocate_of_reserve hsize h
  rw [(ha.reserve h).tryReallocate_eq hold, hallocate]
  exact ⟨moved, _, rfl⟩

/-- A block that cannot be moved is one that no room was reserved for. -/
theorem Owns.reserveOrKeep_of_tryReallocate {regions : List (Nat × Nat)} {e : MemoryError}
    (ha : a.Owns ((addr, old) :: regions)) (hsize : size ≠ 0)
    (hmove : (a.reserveOrKeep size).tryReallocate addr size = .error e) :
    a.reserveOrKeep size = a := by
  rw [Arena.reserveOrKeep] at hmove ⊢
  cases hreserve : a.reserve size with
  | error e' => rfl
  | ok result =>
    obtain ⟨howns, -⟩ := ha.reserve hreserve
    obtain ⟨moved, after, hmoved⟩ := ha.sound.exists_tryReallocate_of_reserve hsize hreserve
      (howns.mem_iff.2 List.mem_cons_self)
    rw [hreserve] at hmove
    cases hmoved.symm.trans hmove

end Arena

end BytecodeKernel
