import BytecodeKernel.Memory.Blocks
import Mathlib.Data.List.Chain
/-!
Segment lists in normal form, and what the operations on them do to the two views, the live blocks
and the free ranges. Normal form is what makes the views determine the list: no segment is empty,
and free neighbours have been joined. The views themselves say nothing about joining, so each
operation is described by what it adds to one view and takes from it.
-/

namespace BytecodeKernel.Segment

/-- Whether a segment is free. -/
def isFree : Segment → Bool
  | free _ => true
  | live _ => false

/-- Normal form: no segment is empty, and no two neighbours are free. -/
structure Tidy (segments : List Segment) : Prop where
  pos : ∀ s ∈ segments, 0 < s.size
  apart : segments.IsChain fun s t => ¬ (s.isFree ∧ t.isFree)

theorem tidy_nil : Tidy [] :=
  ⟨by simp, .nil⟩

theorem Tidy.tail {s : Segment} {rest : List Segment} (h : Tidy (s :: rest)) : Tidy rest :=
  ⟨fun t ht => h.pos t (by simp [ht]), h.apart.tail⟩

theorem Tidy.head_pos {s : Segment} {rest : List Segment} (h : Tidy (s :: rest)) : 0 < s.size :=
  h.pos s (by simp)

/-- A live segment stands in front of anything. -/
theorem Tidy.live_cons {n : Nat} {rest : List Segment} (h : Tidy rest) (hn : 0 < n) :
    Tidy (live n :: rest) := by
  refine ⟨?_, ?_⟩
  · simpa [size, hn] using h.pos
  · cases rest with
    | nil => simp
    | cons t rest => simpa [isFree] using h.apart

/-- A free segment stands in front of anything that does not begin with a free one. -/
theorem Tidy.free_cons {n : Nat} {rest : List Segment} (h : Tidy rest) (hn : 0 < n)
    (hrest : ∀ m tail, rest ≠ free m :: tail) : Tidy (free n :: rest) := by
  refine ⟨?_, ?_⟩
  · simpa [size, hn] using h.pos
  · cases rest with
    | nil => simp
    | cons t rest =>
      cases t with
      | free m => exact absurd rfl (hrest m rest)
      | live m => simpa [isFree] using h.apart

theorem Tidy.free_cons_ne {n : Nat} {rest : List Segment} (h : Tidy (free n :: rest)) (m : Nat)
    (tail : List Segment) : rest ≠ free m :: tail := by
  rintro rfl
  simpa [isFree] using h.apart.rel

/-- The size of a free segment does not matter to what stands behind it. -/
theorem Tidy.resize_free {m n : Nat} {rest : List Segment} (h : Tidy (free m :: rest))
    (hn : 0 < n) : Tidy (free n :: rest) :=
  h.tail.free_cons hn h.free_cons_ne

theorem Tidy.append_right {front back : List Segment} (h : Tidy (front ++ back)) : Tidy back :=
  ⟨fun s hs => h.pos s (by simp [hs]), h.apart.right_of_append⟩

theorem Tidy.append_left {front back : List Segment} (h : Tidy (front ++ back)) : Tidy front :=
  ⟨fun s hs => h.pos s (by simp [hs]), h.apart.left_of_append⟩

theorem Tidy.append {front back : List Segment} (hfront : Tidy front) (hback : Tidy back)
    (hseam : ∀ s ∈ front.getLast?, ∀ t ∈ back.head?, ¬ (s.isFree ∧ t.isFree)) :
    Tidy (front ++ back) := by
  refine ⟨fun s hs => ?_, hfront.apart.append hback.apart hseam⟩
  rcases List.mem_append.1 hs with hs | hs
  · exact hfront.pos s hs
  · exact hback.pos s hs

/-- Only the last segment of a list meets what is put behind it. -/
theorem Tidy.seam {front back : List Segment} (h : Tidy (front ++ back)) :
    ∀ s ∈ front.getLast?, ∀ t ∈ back.head?, ¬ (s.isFree ∧ t.isFree) :=
  (List.isChain_append.1 h.apart).2.2

theorem Tidy.join {s : Segment} {rest : List Segment} (h : Tidy rest) (hs : 0 < s.size) :
    Tidy (join s rest) := by
  fun_cases Segment.join s rest with
  | case1 m n rest => exact h.tail.free_cons (by simp [size] at hs; omega) h.free_cons_ne
  | case2 s rest hne =>
    cases s with
    | live n => exact h.live_cons hs
    | free n => exact h.free_cons hs fun m tail heq => hne n m tail rfl heq

theorem Tidy.foldr_join {segments tail : List Segment} (htail : Tidy tail)
    (hpos : ∀ s ∈ segments, 0 < s.size) : Tidy (segments.foldr Segment.join tail) := by
  induction segments with
  | nil => exact htail
  | cons s rest ih =>
    exact (ih fun t ht => hpos t (by simp [ht])).join (hpos s (by simp))

/-- Joining changes nothing in front of a list that begins with a live segment or is empty. -/
theorem foldr_join_eq_append {segments tail : List Segment} (h : Tidy (segments ++ tail)) :
    segments.foldr Segment.join tail = segments ++ tail := by
  induction segments with
  | nil => rfl
  | cons s rest ih =>
    rw [List.foldr_cons, ih h.tail]
    cases s with
    | live n => rfl
    | free n =>
      -- Only a free segment could be joined, and in normal form no other stands behind it.
      cases hrest : rest ++ tail with
      | nil => simp [Segment.join, hrest]
      | cons t others =>
        cases t with
        | live m => simp [Segment.join, hrest]
        | free m => exact absurd hrest (h.free_cons_ne m others)

/-- Where allocation happened, as a split of the list: no free segment in front was large enough. -/
theorem carve?_eq_some {n offset : Nat} {segments after : List Segment}
    (h : carve? n segments = some (offset, after)) :
    ∃ front m back, segments = front ++ free m :: back ∧ (∀ k, free k ∈ front → k < n) ∧ n ≤ m ∧
      extent front = offset ∧
      after = front ++ live n :: (if m = n then back else free (m - n) :: back) := by
  induction segments generalizing offset after with
  | nil => simp [carve?] at h
  | cons s rest ih =>
    cases s with
    | live k =>
      simp only [carve?, Option.map_eq_some_iff, Prod.mk.injEq, Prod.exists] at h
      obtain ⟨o, tail, htail, rfl, rfl⟩ := h
      obtain ⟨front, m, back, rfl, hfront, hle, rfl, rfl⟩ := ih htail
      exact ⟨live k :: front, m, back, rfl, by simpa using hfront, hle, by simp [size], rfl⟩
    | free k =>
      simp only [carve?] at h
      split at h
      · rename_i hle
        obtain ⟨rfl, rfl⟩ : 0 = offset ∧ _ = after := by simpa using h
        exact ⟨[], k, rest, rfl, by simp, hle, rfl, by simp⟩
      · rename_i hsmall
        simp only [Option.map_eq_some_iff, Prod.mk.injEq, Prod.exists] at h
        obtain ⟨o, tail, htail, rfl, rfl⟩ := h
        obtain ⟨front, m, back, rfl, hfront, hle, rfl, rfl⟩ := ih htail
        refine ⟨free k :: front, m, back, rfl, fun j hj => ?_, hle, by simp [size], rfl⟩
        rcases List.mem_cons.1 hj with heq | hj
        · obtain rfl : j = k := by simpa using heq
          omega
        · exact hfront j hj

/-- Allocation is refused only where every free segment is too small. -/
theorem carve?_eq_none_iff {n : Nat} {segments : List Segment} :
    carve? n segments = none ↔ ∀ k, free k ∈ segments → k < n := by
  induction segments with
  | nil => simp [carve?]
  | cons s rest ih =>
    cases s with
    | live k => simp [carve?, ih]
    | free k =>
      simp only [carve?]
      split
      · rename_i hle
        simp only [reduceCtorEq, List.mem_cons, free.injEq, false_iff, not_forall]
        exact ⟨k, .inl rfl, by omega⟩
      · rename_i hsmall
        simp only [Option.map_eq_none_iff, ih, List.mem_cons, free.injEq]
        constructor
        · rintro hrest j (rfl | hj)
          · omega
          · exact hrest j hj
        · exact fun hall j hj => hall j (.inr hj)

/-- What release did, as a split of the list. -/
theorem vacate?_eq_some {offset : Nat} {segments after : List Segment}
    (h : vacate? offset segments = some after) :
    ∃ front n back, segments = front ++ live n :: back ∧ extent front = offset ∧
      after = front.foldr Segment.join (join (free n) back) := by
  induction segments generalizing offset after with
  | nil => simp [vacate?] at h
  | cons s rest ih =>
    simp only [vacate?] at h
    split at h
    · rename_i hzero
      cases s with
      | free n => simp at h
      | live n =>
        obtain rfl : join (free n) rest = after := by simpa using h
        exact ⟨[], n, rest, rfl, by simp [hzero], rfl⟩
    · split at h
      · contradiction
      · simp only [Option.map_eq_some_iff] at h
        obtain ⟨tail, htail, rfl⟩ := h
        obtain ⟨front, n, back, rfl, hextent, rfl⟩ := ih htail
        refine ⟨s :: front, n, back, rfl, ?_, rfl⟩
        simp only [extent_cons]
        omega

/-- Release is possible wherever a live segment starts. -/
theorem vacate?_isSome {offset : Nat} {segments : List Segment} :
    (vacate? offset segments).isSome = (liveSize? offset segments).isSome := by
  induction segments generalizing offset with
  | nil => rfl
  | cons s rest ih =>
    simp only [vacate?, liveSize?]
    split
    · cases s <;> rfl
    · split
      · rfl
      · rw [Option.isSome_map, ih]

theorem extent_append (front back : List Segment) :
    extent (front ++ back) = extent front + extent back := by
  induction front with
  | nil => simp
  | cons s rest ih =>
    simp only [List.cons_append, extent_cons, ih]
    omega

theorem Tidy.carve? {n offset : Nat} {segments after : List Segment} (h : Tidy segments)
    (hn : 0 < n) (hcarve : carve? n segments = some (offset, after)) : Tidy after := by
  obtain ⟨front, m, back, rfl, -, hle, -, rfl⟩ := carve?_eq_some hcarve
  have hback : Tidy (free m :: back) := h.append_right
  -- What is left of the free segment, if anything, meets the same neighbour as before.
  have hrest : Tidy (if m = n then back else free (m - n) :: back) := by
    split
    · exact hback.tail
    · exact hback.tail.free_cons (by omega) hback.free_cons_ne
  have hlive : Tidy (live n :: (if m = n then back else free (m - n) :: back)) :=
    hrest.live_cons hn
  refine h.append_left.append hlive fun s _ t ht => ?_
  obtain rfl : live n = t := by simpa using ht
  simp [isFree]

theorem Tidy.vacate? {offset : Nat} {segments after : List Segment} (h : Tidy segments)
    (hvacate : vacate? offset segments = some after) : Tidy after := by
  obtain ⟨front, n, back, rfl, -, rfl⟩ := vacate?_eq_some hvacate
  have hlive : Tidy (live n :: back) := h.append_right
  have hback : Tidy (Segment.join (free n) back) := hlive.tail.join hlive.head_pos
  exact hback.foldr_join h.append_left.pos

/-! ### The views -/

theorem freeRanges_append (start : Nat) (front back : List Segment) :
    freeRanges start (front ++ back)
      = freeRanges start front ++ freeRanges (start + extent front) back := by
  induction front generalizing start with
  | nil => simp [freeRanges]
  | cons s rest ih => cases s <;> simp [freeRanges, ih, size, Nat.add_assoc]

theorem liveBlocks_append (start : Nat) (front back : List Segment) :
    liveBlocks start (front ++ back)
      = liveBlocks start front ++ liveBlocks (start + extent front) back := by
  induction front generalizing start with
  | nil => simp [liveBlocks]
  | cons s rest ih => cases s <;> simp [liveBlocks, ih, size, Nat.add_assoc]

/-- Joining free neighbours does not touch live blocks. -/
@[simp] theorem liveBlocks_join (start : Nat) (s : Segment) (rest : List Segment) :
    liveBlocks start (join s rest) = liveBlocks start (s :: rest) := by
  fun_cases join s rest <;> simp [liveBlocks, Nat.add_assoc]

theorem liveBlocks_foldr_join (start : Nat) (front back : List Segment) :
    liveBlocks start (front.foldr join back) = liveBlocks start (front ++ back) := by
  induction front generalizing start with
  | nil => rfl
  | cons s rest ih => cases s <;> simp [liveBlocks, ih]

/-- The live blocks after an allocation: one more, where the free segment began. -/
theorem liveBlocks_of_carve? {n offset : Nat} {segments after : List Segment} (start : Nat)
    (h : carve? n segments = some (offset, after)) :
    ∃ front back, liveBlocks start segments = front ++ back ∧
      liveBlocks start after = front ++ (start + offset, n) :: back := by
  obtain ⟨front, m, back, rfl, -, hle, rfl, rfl⟩ := carve?_eq_some h
  refine ⟨liveBlocks start front, liveBlocks (start + extent front + m) back, ?_, ?_⟩
  · simp [liveBlocks_append, liveBlocks]
  · rw [liveBlocks_append]
    split
    · simp_all [liveBlocks]
    · simp [liveBlocks, show start + extent front + n + (m - n) = start + extent front + m by omega]

/-- The live blocks after a release: one less. -/
theorem liveBlocks_of_vacate? {offset : Nat} {segments after : List Segment} (start : Nat)
    (h : vacate? offset segments = some after) :
    ∃ front n back, liveBlocks start segments = front ++ (start + offset, n) :: back ∧
      liveBlocks start after = front ++ back := by
  obtain ⟨front, n, back, rfl, rfl, rfl⟩ := vacate?_eq_some h
  refine ⟨liveBlocks start front, n, liveBlocks (start + extent front + n) back, ?_, ?_⟩
  · simp [liveBlocks_append, liveBlocks]
  · simp [liveBlocks_foldr_join, liveBlocks_append, liveBlocks]

theorem le_start_of_mem_liveBlocks {start : Nat} {segments : List Segment} {b : Nat × Nat}
    (h : b ∈ liveBlocks start segments) : start ≤ b.1 := by
  induction segments generalizing start with
  | nil => simp [liveBlocks] at h
  | cons s rest ih =>
    cases s with
    | free n => exact Nat.le_trans (Nat.le_add_right _ _) (ih h)
    | live n =>
      rcases List.mem_cons.1 h with rfl | h
      · exact Nat.le_refl _
      · exact Nat.le_trans (Nat.le_add_right _ _) (ih h)

theorem le_start_of_mem_freeRanges {start : Nat} {segments : List Segment} {r : Nat × Nat}
    (h : r ∈ freeRanges start segments) : start ≤ r.1 := by
  induction segments generalizing start with
  | nil => simp [freeRanges] at h
  | cons s rest ih =>
    cases s with
    | live n => exact Nat.le_trans (Nat.le_add_right _ _) (ih h)
    | free n =>
      rcases List.mem_cons.1 h with rfl | h
      · exact Nat.le_refl _
      · exact Nat.le_trans (Nat.le_add_right _ _) (ih h)

theorem end_le_of_mem_liveBlocks {start : Nat} {segments : List Segment} {b : Nat × Nat}
    (h : b ∈ liveBlocks start segments) : b.1 + b.2 ≤ start + extent segments := by
  induction segments generalizing start with
  | nil => simp [liveBlocks] at h
  | cons s rest ih =>
    cases s with
    | free n =>
      have := ih h
      simp only [extent_cons, size]
      omega
    | live n =>
      simp only [extent_cons, size]
      rcases List.mem_cons.1 h with rfl | h
      · simp only
        omega
      · have := ih h
        omega

theorem end_le_of_mem_freeRanges {start : Nat} {segments : List Segment} {r : Nat × Nat}
    (h : r ∈ freeRanges start segments) : r.1 ≤ r.2 ∧ r.2 ≤ start + extent segments := by
  induction segments generalizing start with
  | nil => simp [freeRanges] at h
  | cons s rest ih =>
    cases s with
    | live n =>
      have := ih h
      simp only [extent_cons, size]
      omega
    | free n =>
      simp only [extent_cons, size]
      rcases List.mem_cons.1 h with rfl | h
      · simp only
        omega
      · have := ih h
        omega

/-- In normal form the size of a live segment is what the view of live blocks says. -/
theorem liveSize?_eq_some_iff {segments : List Segment} (h : Tidy segments) (start : Nat)
    {offset n : Nat} :
    liveSize? offset segments = some n ↔ (start + offset, n) ∈ liveBlocks start segments := by
  induction segments generalizing start offset with
  | nil => simp [liveSize?, liveBlocks]
  | cons s rest ih =>
    have hs := h.head_pos
    -- No block of the rest starts inside the first segment.
    have hbehind (o : Nat) (ho : o < s.size) (m : Nat) :
        (start + o, m) ∉ liveBlocks (start + s.size) rest := fun hmem => by
      have := le_start_of_mem_liveBlocks hmem
      omega
    have hcons : (start + offset, n) ∈ liveBlocks start (s :: rest) ↔
        (s = live n ∧ offset = 0) ∨ (start + offset, n) ∈ liveBlocks (start + s.size) rest := by
      cases s <;> simp [liveBlocks, size, eq_comm, and_comm]
    rw [hcons, liveSize?.eq_def]
    simp only
    split
    · rename_i hzero
      subst hzero
      have := hbehind 0 hs n
      cases s <;> simp_all
    · rename_i hne
      split
      · rename_i hlt
        simp [hne, hbehind offset hlt n]
      · rename_i hge
        rw [ih h.tail (start + s.size),
          show start + s.size + (offset - s.size) = start + offset by omega]
        simp [hne]

theorem liveBlocks_pos {start : Nat} {segments : List Segment} (h : Tidy segments) {b : Nat × Nat}
    (hb : b ∈ liveBlocks start segments) : 0 < b.2 := by
  induction segments generalizing start with
  | nil => simp [liveBlocks] at hb
  | cons s rest ih =>
    cases s with
    | free n => exact ih h.tail hb
    | live n =>
      rcases List.mem_cons.1 hb with rfl | hb
      · exact h.head_pos
      · exact ih h.tail hb

theorem freeRanges_pos {start : Nat} {segments : List Segment} (h : Tidy segments) {r : Nat × Nat}
    (hr : r ∈ freeRanges start segments) : r.1 < r.2 := by
  induction segments generalizing start with
  | nil => simp [freeRanges] at hr
  | cons s rest ih =>
    cases s with
    | live n => exact ih h.tail hr
    | free n =>
      rcases List.mem_cons.1 hr with rfl | hr
      · exact Nat.lt_add_of_pos_right h.head_pos
      · exact ih h.tail hr

theorem exists_of_mem_freeRanges {start : Nat} {segments : List Segment} {r : Nat × Nat}
    (h : r ∈ freeRanges start segments) : ∃ k, free k ∈ segments ∧ r.2 = r.1 + k := by
  induction segments generalizing start with
  | nil => simp [freeRanges] at h
  | cons s rest ih =>
    cases s with
    | live n =>
      obtain ⟨k, hk, hr⟩ := ih h
      exact ⟨k, by simp [hk], hr⟩
    | free n =>
      rcases List.mem_cons.1 h with rfl | h
      · exact ⟨n, by simp, rfl⟩
      · obtain ⟨k, hk, hr⟩ := ih h
        exact ⟨k, by simp [hk], hr⟩

/-- Behind a free segment the next free range starts later than that segment ends. -/
theorem lt_start_of_behind_free {n start : Nat} {segments : List Segment}
    (h : Tidy (free n :: segments)) {r : Nat × Nat} (hr : r ∈ freeRanges start segments) :
    start < r.1 := by
  cases segments with
  | nil => simp [freeRanges] at hr
  | cons s rest =>
    cases s with
    | free m => exact absurd rfl (h.free_cons_ne m rest)
    | live m =>
      have hle : start + m ≤ r.1 := le_start_of_mem_freeRanges hr
      have hpos : 0 < m := h.tail.head_pos
      omega

/-- In front of a free segment the free ranges end before that segment starts. -/
theorem end_lt_of_before_free {n start : Nat} {segments : List Segment}
    (h : Tidy (segments ++ [free n])) {r : Nat × Nat} (hr : r ∈ freeRanges start segments) :
    r.2 < start + extent segments := by
  induction segments using List.reverseRecOn with
  | nil => simp [freeRanges] at hr
  | append_singleton front s _ =>
    have hlast : Tidy [s, free n] := by
      rw [List.append_assoc] at h
      exact h.append_right
    cases s with
    | free m => exact absurd rfl (hlast.free_cons_ne n [])
    | live m =>
      -- The live segment keeps its distance, for it is not empty.
      have hpos : 0 < m := hlast.head_pos
      rw [freeRanges_append] at hr
      have hfront : r ∈ freeRanges start front := by simpa [freeRanges] using hr
      have hend := (end_le_of_mem_freeRanges hfront).2
      simp only [extent_append, extent_cons, extent_nil, size]
      omega

/-! ### The views tile the range -/

theorem liveBlocks_pairwise (start : Nat) (segments : List Segment) :
    (liveBlocks start segments).Pairwise fun b c => b.1 + b.2 ≤ c.1 := by
  induction segments generalizing start with
  | nil => exact .nil
  | cons s rest ih =>
    cases s with
    | free n => exact ih (start + n)
    | live n => exact List.pairwise_cons.2 ⟨fun c hc => le_start_of_mem_liveBlocks hc, ih _⟩

theorem freeRanges_pairwise (start : Nat) {segments : List Segment} (h : Tidy segments) :
    (freeRanges start segments).Pairwise fun r s => r.2 < s.1 := by
  induction segments generalizing start with
  | nil => exact .nil
  | cons s rest ih =>
    cases s with
    | live n => exact ih _ h.tail
    | free n => exact List.pairwise_cons.2 ⟨fun r hr => lt_start_of_behind_free h hr, ih _ h.tail⟩

/-- A live block and a free range do not meet. -/
theorem live_disjoint_free {start : Nat} {segments : List Segment} {b r : Nat × Nat}
    (hb : b ∈ liveBlocks start segments) (hr : r ∈ freeRanges start segments) :
    b.1 + b.2 ≤ r.1 ∨ r.2 ≤ b.1 := by
  induction segments generalizing start with
  | nil => simp [liveBlocks] at hb
  | cons s rest ih =>
    cases s with
    | free n =>
      rcases List.mem_cons.1 hr with rfl | hr
      · exact .inr (le_start_of_mem_liveBlocks hb)
      · exact ih hb hr
    | live n =>
      rcases List.mem_cons.1 hb with rfl | hb
      · exact .inl (le_start_of_mem_freeRanges hr)
      · exact ih hb hr

/-- Every address of the range lies in a live block or in a free range, and no other does. -/
theorem covered_iff (start : Nat) (segments : List Segment) (x : Nat) :
    (∃ b ∈ liveBlocks start segments, b.1 ≤ x ∧ x < b.1 + b.2) ∨
        (∃ r ∈ freeRanges start segments, r.1 ≤ x ∧ x < r.2) ↔
      start ≤ x ∧ x < start + extent segments := by
  induction segments generalizing start with
  | nil => simp [liveBlocks, freeRanges]
  | cons s rest ih =>
    have hrest := ih (start + s.size)
    -- An address lies in the first segment or in the rest.
    have hsplit : start ≤ x ∧ x < start + extent (s :: rest) ↔
        (start ≤ x ∧ x < start + s.size) ∨
          (start + s.size ≤ x ∧ x < start + s.size + extent rest) := by
      simp only [extent_cons]
      omega
    rw [hsplit, ← hrest]
    cases s with
    | free n =>
      simp only [liveBlocks, freeRanges, size, List.mem_cons, exists_eq_or_imp]
      exact or_left_comm
    | live n =>
      simp only [liveBlocks, freeRanges, size, List.mem_cons, exists_eq_or_imp]
      exact or_assoc

end BytecodeKernel.Segment

namespace BytecodeKernel.Blocks

open Segment

/-- Normal form, with all borders among the addresses. -/
structure Fits (b : Blocks) : Prop where
  tidy : Tidy b.segments
  bound : b.origin + b.extent < addressLimit

theorem allocate_eq_ok {b after : Blocks} {size addr : Nat}
    (h : b.allocate size = .ok (addr, after)) :
    0 < size ∧ ∃ offset, carve? size b.segments = some (offset, after.segments) ∧
      addr = b.origin + offset ∧ after.origin = b.origin := by
  simp only [allocate] at h
  split at h
  · contradiction
  · rename_i hsize
    split at h
    · rename_i offset segments hcarve
      cases h
      exact ⟨Nat.pos_of_ne_zero hsize, offset, hcarve, rfl, rfl⟩
    · contradiction

theorem sizeOf?_eq_some_iff {b : Blocks} {addr size : Nat} (h : Tidy b.segments) :
    b.sizeOf? addr = some size ↔ (addr, size) ∈ b.liveBlocks := by
  rw [sizeOf?]
  split
  · refine ⟨by simp, fun hmem => ?_⟩
    have := le_start_of_mem_liveBlocks hmem
    omega
  · rw [liveSize?_eq_some_iff h b.origin, show b.origin + (addr - b.origin) = addr by omega]
    rfl

theorem release_eq_ok {b after : Blocks} {addr : Nat} (h : b.release addr = .ok after) :
    ∃ offset, addr = b.origin + offset ∧ vacate? offset b.segments = some after.segments ∧
      after.origin = b.origin := by
  simp only [release] at h
  split at h
  · contradiction
  · split at h
    · rename_i hvacate
      cases h
      exact ⟨addr - b.origin, by omega, hvacate, rfl⟩
    · contradiction

/-- A block can be released wherever one is live. -/
theorem exists_release {b : Blocks} {addr size : Nat} (h : Tidy b.segments)
    (hmem : (addr, size) ∈ b.liveBlocks) : ∃ after, b.release addr = .ok after := by
  have hle : b.origin ≤ addr := le_start_of_mem_liveBlocks hmem
  have hsize : liveSize? (addr - b.origin) b.segments = some size := by
    rw [liveSize?_eq_some_iff h b.origin, Nat.add_sub_cancel' hle]
    exact hmem
  have hvacate : (vacate? (addr - b.origin) b.segments).isSome := by
    rw [vacate?_isSome, hsize]
    rfl
  obtain ⟨segments, hsegments⟩ := Option.isSome_iff_exists.1 hvacate
  exact ⟨{ b with segments }, by simp [release, Nat.not_lt.2 hle, hsegments]⟩

theorem liveBlocks_of_allocate {b after : Blocks} {size addr : Nat}
    (h : b.allocate size = .ok (addr, after)) :
    ∃ front back, b.liveBlocks = front ++ back ∧
      after.liveBlocks = front ++ (addr, size) :: back := by
  obtain ⟨-, offset, hcarve, rfl, horigin⟩ := allocate_eq_ok h
  rw [liveBlocks, liveBlocks, horigin]
  exact liveBlocks_of_carve? b.origin hcarve

theorem liveBlocks_of_release {b after : Blocks} {addr : Nat} (h : b.release addr = .ok after) :
    ∃ front size back, b.liveBlocks = front ++ (addr, size) :: back ∧
      after.liveBlocks = front ++ back := by
  obtain ⟨offset, rfl, hvacate, horigin⟩ := release_eq_ok h
  rw [liveBlocks, liveBlocks, horigin]
  exact liveBlocks_of_vacate? b.origin hvacate

/-- An address is the only reason to refuse a release. -/
theorem error_of_release (b : Blocks) {addr : Nat} {e : MemoryError}
    (h : b.release addr = .error e) : e = .invalidPointer addr := by
  simp only [release] at h
  split at h
  · cases h
    rfl
  · split at h
    · contradiction
    · cases h
      rfl

theorem tidy_allocate {b after : Blocks} {size addr : Nat} (h : Tidy b.segments)
    (hallocate : b.allocate size = .ok (addr, after)) : Tidy after.segments := by
  obtain ⟨hsize, offset, hcarve, -⟩ := allocate_eq_ok hallocate
  exact h.carve? hsize hcarve

theorem tidy_release {b after : Blocks} {addr : Nat} (h : Tidy b.segments)
    (hrelease : b.release addr = .ok after) : Tidy after.segments := by
  obtain ⟨offset, -, hvacate, -⟩ := release_eq_ok hrelease
  exact h.vacate? hvacate

theorem Fits.allocate {b after : Blocks} {size addr : Nat} (h : b.Fits)
    (hallocate : b.allocate size = .ok (addr, after)) : after.Fits := by
  obtain ⟨-, -, -, -, horigin⟩ := allocate_eq_ok hallocate
  refine ⟨tidy_allocate h.tidy hallocate, ?_⟩
  rw [horigin, extent_of_allocate hallocate]
  exact h.bound

theorem Fits.release {b after : Blocks} {addr : Nat} (h : b.Fits)
    (hrelease : b.release addr = .ok after) : after.Fits := by
  obtain ⟨-, -, -, horigin⟩ := release_eq_ok hrelease
  refine ⟨tidy_release h.tidy hrelease, ?_⟩
  rw [horigin, extent_of_release hrelease]
  exact h.bound

@[simp] theorem origin_extend (b : Blocks) (size : Nat) : (b.extend size).origin = b.origin := by
  simp only [extend]
  split <;> rfl

theorem tidy_extend {b : Blocks} (h : Tidy b.segments) (size : Nat) :
    Tidy (b.extend size).segments := by
  simp only [extend]
  split
  · exact h
  · have hlast : Tidy [free size] := tidy_nil.free_cons (by omega) (by simp)
    exact hlast.foldr_join h.pos

theorem Fits.extend {b : Blocks} {size : Nat} (h : b.Fits)
    (hbound : b.origin + b.extent + size < addressLimit) : (b.extend size).Fits := by
  refine ⟨tidy_extend h.tidy size, ?_⟩
  rw [origin_extend, extent_extend]
  omega

@[simp] theorem liveBlocks_extend (b : Blocks) (size : Nat) :
    (b.extend size).liveBlocks = b.liveBlocks := by
  simp only [extend]
  split
  · rfl
  · simp [liveBlocks, liveBlocks_foldr_join, liveBlocks_append, Segment.liveBlocks]

theorem tidy_ofSize (origin size : Nat) : Tidy (ofSize origin size).segments := by
  simp only [ofSize]
  split
  · exact tidy_nil
  · exact tidy_nil.free_cons (by omega) (by simp)

theorem fits_ofSize {origin size : Nat} (h : origin + size < addressLimit) :
    (ofSize origin size).Fits :=
  ⟨tidy_ofSize origin size, by rwa [extent_ofSize]⟩

/-- With no live block, what is left is one free range over everything. -/
theorem eq_ofSize {b : Blocks} (htidy : Tidy b.segments) (hlive : b.liveBlocks = []) :
    b = ofSize b.origin b.extent := by
  obtain ⟨origin, segments⟩ := b
  cases segments with
  | nil => rfl
  | cons s rest =>
    cases s with
    | live n => simp [liveBlocks, Segment.liveBlocks] at hlive
    | free n =>
      have hpos : n ≠ 0 := htidy.head_pos.ne'
      cases rest with
      | nil => simp [ofSize, extent, size, hpos]
      | cons t tail =>
        cases t with
        | live m => simp [liveBlocks, Segment.liveBlocks] at hlive
        | free m => exact absurd rfl (htidy.free_cons_ne m tail)

@[simp] theorem liveBlocks_ofSize (origin size : Nat) : (ofSize origin size).liveBlocks = [] := by
  simp only [ofSize, liveBlocks]
  split <;> rfl

theorem freeRanges_ofSize (origin size : Nat) :
    (ofSize origin size).freeRanges = if size = 0 then [] else [(origin, origin + size)] := by
  simp only [ofSize, freeRanges]
  split <;> rfl

end BytecodeKernel.Blocks
