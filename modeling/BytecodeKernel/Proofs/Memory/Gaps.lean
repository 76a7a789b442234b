import BytecodeKernel.Proofs.Memory.Tables
import Mathlib.Data.List.Sort
/-!
What a table says is free is what its live blocks leave open. In normal form the free ranges are the
maximal gaps between live blocks, so a table is determined by its live blocks and its two ends, and
the history that led to it leaves no trace: blocks may be released in any order, and a block that is
released at once might as well not have been allocated.

The same is said of the two maps of `Tables`, whose merge loops have to find on both sides of a
released block what normal form demands.
-/

namespace BytecodeKernel

namespace Segment

/-- How large a free segment is shows in where the next live one starts, or in the end. -/
theorem Tidy.free_size_unique {m n start : Nat} {rest others : List Segment}
    (h : Tidy (free m :: rest)) (h' : Tidy (free n :: others))
    (hlive : liveBlocks (start + m) rest = liveBlocks (start + n) others)
    (hextent : m + extent rest = n + extent others) : m = n := by
  cases rest with
  | nil =>
    cases others with
    | nil => simpa using hextent
    | cons t others =>
      cases t with
      | free k => exact absurd rfl (h'.free_cons_ne k others)
      | live k => simp [liveBlocks] at hlive
  | cons s rest =>
    cases s with
    | free k => exact absurd rfl (h.free_cons_ne k rest)
    | live k =>
      cases others with
      | nil => simp [liveBlocks] at hlive
      | cons t others =>
        cases t with
        | free j => exact absurd rfl (h'.free_cons_ne j others)
        | live j =>
          have hhead : (start + m, k) = (start + n, j) := (List.cons.inj hlive).1
          have hstart := congrArg Prod.fst hhead
          simpa using hstart

/-- The first live block of one list would start inside the free segment of the other. -/
theorem Tidy.liveBlocks_free_ne_live {rest others : List Segment} {start m n : Nat}
    (h : Tidy (free m :: rest)) :
    liveBlocks start (free m :: rest) ≠ liveBlocks start (live n :: others) := by
  intro hlive
  have hmem : (start, n) ∈ liveBlocks (start + m) rest := by
    change liveBlocks (start + m) rest = (start, n) :: _ at hlive
    rw [hlive]
    exact List.mem_cons_self
  have hstart : start + m ≤ start := le_start_of_mem_liveBlocks hmem
  have hpos : 0 < m := h.head_pos
  omega

/-- In normal form the live blocks and the ends determine everything. -/
theorem Tidy.eq_of_liveBlocks {segments others : List Segment} {start : Nat} (h : Tidy segments)
    (h' : Tidy others) (hlive : liveBlocks start segments = liveBlocks start others)
    (hextent : extent segments = extent others) : segments = others := by
  induction segments generalizing others start with
  | nil =>
    cases others with
    | nil => rfl
    | cons t others =>
      have hpos := h'.head_pos
      simp only [extent_nil, extent_cons] at hextent
      omega
  | cons s rest ih =>
    cases others with
    | nil =>
      have hpos := h.head_pos
      simp only [extent_nil, extent_cons] at hextent
      omega
    | cons t others =>
      simp only [extent_cons] at hextent
      cases s with
      | free m =>
        cases t with
        | free n =>
          obtain rfl : m = n := h.free_size_unique h' hlive hextent
          rw [ih h.tail h'.tail hlive (Nat.add_left_cancel hextent)]
        | live n => exact absurd hlive h.liveBlocks_free_ne_live
      | live m =>
        cases t with
        | free n => exact absurd hlive.symm h'.liveBlocks_free_ne_live
        | live n =>
          obtain ⟨hhead, hrest⟩ := List.cons.inj hlive
          obtain rfl : m = n := congrArg Prod.snd hhead
          rw [ih h.tail h'.tail hrest (Nat.add_left_cancel hextent)]

end Segment

namespace Blocks

open Segment

/-- A run of addresses of the range, with its exclusive end, that meets no live block. -/
structure Clear (b : Blocks) (r : Nat × Nat) : Prop where
  pos : r.1 < r.2
  origin_le : b.origin ≤ r.1
  le_end : r.2 ≤ b.origin + b.extent
  avoids : ∀ e ∈ b.liveBlocks, e.1 + e.2 ≤ r.1 ∨ r.2 ≤ e.1

/-- A clear run that no larger one contains. -/
def IsGap (b : Blocks) (r : Nat × Nat) : Prop :=
  b.Clear r ∧ ∀ s, b.Clear s → s.1 ≤ r.1 → r.2 ≤ s.2 → s = r

variable {b c after : Blocks} {r s : Nat × Nat}

theorem clear_of_mem_freeRanges (h : Tidy b.segments) (hr : r ∈ b.freeRanges) : b.Clear r where
  pos := freeRanges_pos h hr
  origin_le := le_start_of_mem_freeRanges hr
  le_end := (end_le_of_mem_freeRanges hr).2
  avoids _ he := live_disjoint_free he hr

/-- An address of a clear run lies in some free range. -/
theorem Clear.exists_freeRange (hs : b.Clear s) {x : Nat} (hx : s.1 ≤ x ∧ x < s.2) :
    ∃ r ∈ b.freeRanges, r.1 ≤ x ∧ x < r.2 := by
  have hin : b.origin ≤ x ∧ x < b.origin + Segment.extent b.segments :=
    ⟨hs.origin_le.trans hx.1, hx.2.trans_le hs.le_end⟩
  rcases (covered_iff b.origin b.segments x).2 hin with ⟨e, he, hle, hlt⟩ | hfree
  · have := hs.avoids e he
    omega
  · exact hfree

/-- Two free ranges that touch are one. -/
theorem eq_of_mem_freeRanges (h : Tidy b.segments) (hr : r ∈ b.freeRanges) (hs : s ∈ b.freeRanges)
    (hrs : r.1 ≤ s.2) (hsr : s.1 ≤ r.2) : r = s := by
  have hapart := List.pairwise_iff_getElem.1 (freeRanges_pairwise b.origin h)
  obtain ⟨i, hi, rfl⟩ := List.mem_iff_getElem.1 hr
  obtain ⟨j, hj, rfl⟩ := List.mem_iff_getElem.1 hs
  rcases Nat.lt_trichotomy i j with hlt | rfl | hlt
  · exact absurd (hapart i j hi hj hlt) hsr.not_gt
  · rfl
  · exact absurd (hapart j i hj hi hlt) hrs.not_gt

theorem isGap_of_mem_freeRanges (h : Tidy b.segments) (hr : r ∈ b.freeRanges) : b.IsGap r := by
  refine ⟨clear_of_mem_freeRanges h hr, fun s hs hle hge => ?_⟩
  have hpos := freeRanges_pos h hr
  -- Every address of the larger run is free, and the free range it lies in reaches to `r`.
  have hstart : r.1 ≤ s.1 := by
    by_contra hlt
    obtain ⟨t, ht, htle, htlt⟩ := hs.exists_freeRange (x := r.1 - 1) (by omega)
    obtain rfl := eq_of_mem_freeRanges h ht hr (by omega) (by omega)
    omega
  have hstop : s.2 ≤ r.2 := by
    by_contra hlt
    obtain ⟨t, ht, htle, htlt⟩ := hs.exists_freeRange (x := r.2) (by omega)
    obtain rfl := eq_of_mem_freeRanges h ht hr htle (by omega)
    omega
  exact Prod.ext (Nat.le_antisymm hle hstart) (Nat.le_antisymm hstop hge)

/-- Two clear runs that meet make one. -/
theorem Clear.union (hr : b.Clear r) (hs : b.Clear s) (hlt : r.1 < s.2) :
    b.Clear (s.1, max r.2 s.2) where
  pos := hs.pos.trans_le (Nat.le_max_right _ _)
  origin_le := hs.origin_le
  le_end := Nat.max_le.2 ⟨hr.le_end, hs.le_end⟩
  avoids e he := by
    have havoids := hr.avoids e he
    have havoids' := hs.avoids e he
    have hpos := hr.pos
    simp only
    omega

/-- In normal form the free ranges are the maximal gaps between the live blocks. -/
theorem mem_freeRanges_iff_isGap (h : Tidy b.segments) : r ∈ b.freeRanges ↔ b.IsGap r := by
  refine ⟨isGap_of_mem_freeRanges h, fun ⟨hclear, hmax⟩ => ?_⟩
  obtain ⟨s, hs, hle, hlt⟩ := hclear.exists_freeRange ⟨Nat.le_refl _, hclear.pos⟩
  have hunion : (s.1, max r.2 s.2) = r :=
    hmax _ (hclear.union (clear_of_mem_freeRanges h hs) hlt) hle (Nat.le_max_left _ _)
  have hrs : r = s := by
    refine (isGap_of_mem_freeRanges h hs).2 r hclear ?_ ?_
    · exact Nat.le_of_eq (congrArg Prod.fst hunion).symm
    · have hstop : max r.2 s.2 = r.2 := congrArg Prod.snd hunion
      omega
  exact hrs ▸ hs

/-! ### One operation -/

/-- Ascending lists with the same members are equal. -/
theorem eq_of_ascending {l m : List (Nat × Nat)} (hl : l.Pairwise fun e f => e.1 < f.1)
    (hm : m.Pairwise fun e f => e.1 < f.1) (h : ∀ e, e ∈ l ↔ e ∈ m) : l = m := by
  have : Std.Irrefl fun e f : Nat × Nat => e.1 < f.1 := ⟨fun _ => Nat.lt_irrefl _⟩
  have : Std.Antisymm fun e f : Nat × Nat => e.1 < f.1 :=
    ⟨fun _ _ hef hfe => absurd hef hfe.not_gt⟩
  exact hl.eq_of_mem_iff hm h

theorem liveBlocks_ascending (h : Tidy b.segments) :
    b.liveBlocks.Pairwise fun e f => e.1 < f.1 := by
  refine (liveBlocks_pairwise b.origin b.segments).imp_of_mem fun he _ hle => ?_
  have hpos := liveBlocks_pos h he
  omega

/-- In an ascending list the entry of one key is all that is left out with it. -/
theorem filter_middle {front back : List (Nat × Nat)} {e : Nat × Nat}
    (h : (front ++ e :: back).Pairwise fun e f => e.1 < f.1) :
    (front ++ e :: back).filter (·.1 ≠ e.1) = front ++ back := by
  obtain ⟨-, hback, hcross⟩ := List.pairwise_append.1 h
  refine Tables.remove_middle (fun f hf => ?_) fun f hf => ?_
  · exact hcross f hf e List.mem_cons_self
  · exact List.rel_of_pairwise_cons hback hf

/-- Released is the one block that starts at the address. -/
theorem liveBlocks_release_eq_filter {addr : Nat} (h : Tidy b.segments)
    (hrelease : b.release addr = .ok after) :
    after.liveBlocks = b.liveBlocks.filter (·.1 ≠ addr) := by
  obtain ⟨front, size, back, hbefore, hafter⟩ := liveBlocks_of_release hrelease
  have hascending := liveBlocks_ascending h
  rw [hbefore] at hascending
  rw [hafter, hbefore, filter_middle hascending]

/-- Tables in normal form with the same ends and the same live blocks are the same. -/
theorem eq_of_mem_liveBlocks_iff (hb : Tidy b.segments) (hc : Tidy c.segments)
    (horigin : b.origin = c.origin) (hextent : b.extent = c.extent)
    (hlive : ∀ e, e ∈ b.liveBlocks ↔ e ∈ c.liveBlocks) : b = c := by
  have hlists := eq_of_ascending (liveBlocks_ascending hb) (liveBlocks_ascending hc) hlive
  obtain ⟨origin, segments⟩ := b
  obtain ⟨_, others⟩ := c
  cases horigin
  cases hb.eq_of_liveBlocks hc hlists hextent
  rfl

/-! ### Histories -/

/-- A change that a client can ask for. -/
inductive Call where
  | allocate (size : Nat)
  | release (addr : Nat)
  | extend (size : Nat)

/-- The table after a call. One that fails changes nothing. -/
def perform (b : Blocks) : Call → Blocks
  | .allocate size =>
    match b.allocate size with
    | .ok (_, after) => after
    | .error _ => b
  | .release addr =>
    match b.release addr with
    | .ok after => after
    | .error _ => b
  | .extend size => b.extend size

def performAll (b : Blocks) (calls : List Call) : Blocks :=
  calls.foldl perform b

/-- Releases several blocks, in the order in which they are listed. -/
def releaseAll (b : Blocks) (starts : List Nat) : Except MemoryError Blocks :=
  starts.foldlM release b

/-- Normal form over a range that begins where it did and has not shrunk. -/
structure Kept (b c : Blocks) : Prop where
  tidy : Tidy c.segments
  origin : c.origin = b.origin
  extent : b.extent ≤ c.extent

theorem Kept.refl (h : Tidy b.segments) : Kept b b :=
  ⟨h, rfl, Nat.le_refl _⟩

theorem Kept.trans {d : Blocks} (hbc : Kept b c) (hcd : Kept c d) : Kept b d :=
  ⟨hcd.tidy, hcd.origin.trans hbc.origin, hbc.extent.trans hcd.extent⟩

theorem kept_of_allocate {size addr : Nat} (h : Tidy b.segments)
    (hallocate : b.allocate size = .ok (addr, after)) : Kept b after := by
  obtain ⟨-, -, -, -, horigin⟩ := allocate_eq_ok hallocate
  exact ⟨tidy_allocate h hallocate, horigin, (extent_of_allocate hallocate).ge⟩

theorem kept_of_release {addr : Nat} (h : Tidy b.segments)
    (hrelease : b.release addr = .ok after) : Kept b after := by
  obtain ⟨-, -, -, horigin⟩ := release_eq_ok hrelease
  exact ⟨tidy_release h hrelease, horigin, (extent_of_release hrelease).ge⟩

theorem kept_extend (h : Tidy b.segments) (size : Nat) : Kept b (b.extend size) := by
  refine ⟨tidy_extend h size, origin_extend b size, ?_⟩
  rw [extent_extend]
  exact Nat.le_add_right _ _

theorem kept_perform (h : Tidy b.segments) (call : Call) : Kept b (b.perform call) := by
  cases call with
  | allocate size =>
    simp only [perform]
    split
    · exact kept_of_allocate h ‹_›
    · exact .refl h
  | release addr =>
    simp only [perform]
    split
    · exact kept_of_release h ‹_›
    · exact .refl h
  | extend size => exact kept_extend h size

theorem kept_performAll (h : Tidy b.segments) (calls : List Call) :
    Kept b (b.performAll calls) := by
  induction calls generalizing b with
  | nil => exact .refl h
  | cons call rest ih =>
    have hcall := kept_perform h call
    exact hcall.trans (ih hcall.tidy)

/-- A block that is released at once leaves the table as it was. -/
theorem release_of_allocate {size addr : Nat} (h : Tidy b.segments)
    (hallocate : b.allocate size = .ok (addr, after)) : after.release addr = .ok b := by
  have hafter := kept_of_allocate h hallocate
  obtain ⟨front, back, hbefore, hlive⟩ := liveBlocks_of_allocate hallocate
  obtain ⟨again, hagain⟩ := exists_release hafter.tidy
    (show (addr, size) ∈ after.liveBlocks by simp [hlive])
  have hkept := kept_of_release hafter.tidy hagain
  have hsame : again.liveBlocks = b.liveBlocks := by
    have hascending := liveBlocks_ascending hafter.tidy
    rw [hlive] at hascending
    rw [liveBlocks_release_eq_filter hafter.tidy hagain, hlive, filter_middle hascending, hbefore]
  have hextent : again.extent = b.extent :=
    (extent_of_release hagain).trans (extent_of_allocate hallocate)
  rw [hagain, eq_of_mem_liveBlocks_iff hkept.tidy h (hkept.origin.trans hafter.origin) hextent
    fun e => by rw [hsame]]

/-- Several live blocks can be released, and those that are left do not depend on the order. -/
theorem exists_releaseAll {starts : List Nat} (h : Tidy b.segments) (hnodup : starts.Nodup)
    (hlive : ∀ addr ∈ starts, ∃ size, (addr, size) ∈ b.liveBlocks) :
    ∃ after, b.releaseAll starts = .ok after ∧ Tidy after.segments ∧ after.origin = b.origin ∧
      after.extent = b.extent ∧ after.liveBlocks = b.liveBlocks.filter (·.1 ∉ starts) := by
  induction starts generalizing b with
  | nil => exact ⟨b, rfl, h, rfl, rfl, by simp⟩
  | cons addr rest ih =>
    obtain ⟨hfresh, hrest⟩ := List.nodup_cons.1 hnodup
    obtain ⟨size, hsize⟩ := hlive addr List.mem_cons_self
    obtain ⟨next, hnext⟩ := exists_release h hsize
    have hkept := kept_of_release h hnext
    have hfilter := liveBlocks_release_eq_filter h hnext
    -- The others are live still, as they start elsewhere.
    have hothers : ∀ other ∈ rest, ∃ size, (other, size) ∈ next.liveBlocks := fun other ho => by
      obtain ⟨n, hn⟩ := hlive other (List.mem_cons_of_mem _ ho)
      refine ⟨n, ?_⟩
      rw [hfilter, List.mem_filter]
      exact ⟨hn, by simpa using fun heq : other = addr => hfresh (heq ▸ ho)⟩
    obtain ⟨after, hafter, htidy, horigin, hextent, hleft⟩ := ih hkept.tidy hrest hothers
    refine ⟨after, ?_, htidy, horigin.trans hkept.origin,
      hextent.trans (extent_of_release hnext), ?_⟩
    · rw [releaseAll, List.foldlM_cons, hnext]
      exact hafter
    · rw [hleft, hfilter, List.filter_filter]
      refine List.filter_congr fun e _ => ?_
      simp [Bool.and_comm]

/-- The order in which blocks are released does not matter. -/
theorem exists_releaseAll_of_perm {starts : List Nat} (h : Tidy b.segments) (hnodup : starts.Nodup)
    (hlive : ∀ addr ∈ starts, ∃ size, (addr, size) ∈ b.liveBlocks) :
    ∃ after, after.liveBlocks = b.liveBlocks.filter (·.1 ∉ starts) ∧
      ∀ order, order.Perm starts → b.releaseAll order = .ok after := by
  obtain ⟨after, -, htidy, horigin, hextent, hleft⟩ := exists_releaseAll h hnodup hlive
  refine ⟨after, hleft, fun order hperm => ?_⟩
  obtain ⟨other, hother, htidy', horigin', hextent', hleft'⟩ :=
    exists_releaseAll h (hperm.nodup_iff.2 hnodup) fun addr ha => hlive addr (hperm.mem_iff.1 ha)
  rw [hother, eq_of_mem_liveBlocks_iff htidy' htidy (horigin'.trans horigin.symm)
    (hextent'.trans hextent.symm) fun e => ?_]
  simp [hleft, hleft', hperm.mem_iff]

end Blocks

/-! ### Histories of the two maps -/

namespace Tables

/-- The maps of a range in which nothing is live. -/
def ofRange (start stop : Nat) : Tables :=
  ⟨[], if start < stop then [(start, stop)] else []⟩

/-- The maps after a call, and the end of the range that they manage. -/
def perform? (t : Tables) (stop : Nat) : Blocks.Call → Option (Tables × Nat)
  | .allocate size => do
    match ← t.allocate? size with
    | .ok (_, after) => return (after, stop)
    | .error _ => return (t, stop)
  | .release addr => do
    match ← t.release? addr with
    | .ok after => return (after, stop)
    | .error _ => return (t, stop)
  | .extend size => do
    let grown ← Address.add? stop size
    return (t.extend stop grown, grown)

def performAll? (t : Tables) (stop : Nat) : List Blocks.Call → Option (Tables × Nat)
  | [] => some (t, stop)
  | call :: rest => do
    let (after, stop) ← t.perform? stop call
    after.performAll? stop rest

variable {b : Blocks}

theorem ofBlocks_ofSize (origin size : Nat) :
    ofBlocks (.ofSize origin size) = ofRange origin (origin + size) := by
  rw [ofBlocks, ofRange, Blocks.liveBlocks_ofSize, Blocks.freeRanges_ofSize]
  by_cases hsize : size = 0
  · simp [hsize]
  · rw [if_neg hsize, if_pos (by omega)]

/-- A call on the maps has a value as long as the end is an address, and follows the table. -/
theorem perform?_ofBlocks (h : b.Fits) (call : Blocks.Call)
    (hbound : b.origin + (b.perform call).extent < addressLimit) :
    (ofBlocks b).perform? (b.origin + b.extent) call
      = some (ofBlocks (b.perform call), b.origin + (b.perform call).extent) := by
  cases call with
  | allocate size =>
    rw [perform?, allocate?_ofBlocks h, Blocks.perform]
    cases hallocate : b.allocate size with
    | error e => rfl
    | ok result =>
      obtain ⟨addr, after⟩ := result
      simp [Except.map, Blocks.extent_of_allocate hallocate]
  | release addr =>
    rw [perform?, release?_ofBlocks h, Blocks.perform]
    cases hrelease : b.release addr with
    | error e => rfl
    | ok after => simp [Except.map, Blocks.extent_of_release hrelease]
  | extend size =>
    rw [Blocks.perform, Blocks.extent_extend, ← Nat.add_assoc] at *
    have hadd : Address.add? (b.origin + b.extent) size = some (b.origin + b.extent + size) :=
      if_pos hbound
    simp [perform?, hadd, extend_ofBlocks h]

/-- The last end bounds all that came before, since no call draws it back. -/
theorem performAll?_ofBlocks (h : Segment.Tidy b.segments) (calls : List Blocks.Call)
    (hbound : b.origin + (b.performAll calls).extent < addressLimit) :
    (ofBlocks b).performAll? (b.origin + b.extent) calls
      = some (ofBlocks (b.performAll calls), b.origin + (b.performAll calls).extent) := by
  induction calls generalizing b with
  | nil => rfl
  | cons call rest ih =>
    have hcall := Blocks.kept_perform h call
    have hrest := Blocks.kept_performAll hcall.tidy rest
    have hfits : b.Fits := by
      have hle := hcall.extent.trans hrest.extent
      exact ⟨h, (Nat.add_le_add_left hle b.origin).trans_lt hbound⟩
    have hstep := perform?_ofBlocks hfits call
      ((Nat.add_le_add_left hrest.extent b.origin).trans_lt hbound)
    have hlater := ih hcall.tidy (hcall.origin.symm ▸ hbound)
    rw [hcall.origin] at hlater
    rw [performAll?, hstep]
    exact hlater

end Tables

/-- Whatever the history, the free ranges are the maximal gaps between the live blocks, in order.
So a second history that ends with the same live blocks and the same end ends with the same table;
live blocks may be released in any order; and a block that is released as soon as it was allocated
leaves no trace. The two maps, in 32 bits, go through the same history and arrive at the same. -/
theorem Blocks.canonical_performAll (origin size : Nat) (calls : List Blocks.Call) :
    let start := Blocks.ofSize origin size
    let b := start.performAll calls
    b.freeRanges.Pairwise (fun r s => r.2 < s.1) ∧
      (∀ r, r ∈ b.freeRanges ↔ b.IsGap r) ∧
      (∀ others c, c = start.performAll others →
        (∀ e, e ∈ c.liveBlocks ↔ e ∈ b.liveBlocks) → c.extent = b.extent →
          c.freeRanges = b.freeRanges ∧ c = b) ∧
      (∀ starts : List Nat, starts.Nodup →
        (∀ addr ∈ starts, ∃ n, (addr, n) ∈ b.liveBlocks) →
          ∃ after, after.liveBlocks = b.liveBlocks.filter (·.1 ∉ starts) ∧
            ∀ order, order.Perm starts → b.releaseAll order = .ok after) ∧
      (∀ n addr after, b.allocate n = .ok (addr, after) → after.release addr = .ok b) ∧
      (origin + b.extent < addressLimit →
        (Tables.ofRange origin (origin + size)).performAll? (origin + size) calls
          = some (⟨b.liveBlocks, b.freeRanges⟩, origin + b.extent)) := by
  intro start b
  have hstart : Segment.Tidy start.segments := tidy_ofSize origin size
  have hb : Kept start b := kept_performAll hstart calls
  refine ⟨Segment.freeRanges_pairwise b.origin hb.tidy, fun r => mem_freeRanges_iff_isGap hb.tidy,
    fun others c hother hlive hextent => ?_, fun starts => exists_releaseAll_of_perm hb.tidy,
    fun n addr after => release_of_allocate hb.tidy, fun hbound => ?_⟩
  · have hc : Kept start c := hother ▸ kept_performAll hstart others
    have heq : c = b :=
      eq_of_mem_liveBlocks_iff hc.tidy hb.tidy (hc.origin.trans hb.origin.symm) hextent hlive
    exact ⟨congrArg freeRanges heq, heq⟩
  · rw [← Tables.ofBlocks_ofSize]
    have hmaps := Tables.performAll?_ofBlocks hstart calls hbound
    rwa [extent_ofSize] at hmaps

/-- Two histories that leave one block between two gaps. The second has had it twice. -/
theorem Blocks.canonical_after_detour :
    let start := Blocks.ofSize 1 30
    let b := start.performAll [.allocate 8, .allocate 4, .release 1]
    let c := start.performAll
      [.allocate 10, .release 1, .allocate 8, .allocate 4, .allocate 6, .release 13, .release 1]
    c = b ∧ b.freeRanges = [(1, 9), (13, 31)] := by
  intro start b c
  have hcanonical := (Blocks.canonical_performAll 1 30 [.allocate 8, .allocate 4, .release 1]).2.2.1
    [.allocate 10, .release 1, .allocate 8, .allocate 4, .allocate 6, .release 13, .release 1] c rfl
  have hlive : c.liveBlocks = b.liveBlocks := by decide
  refine ⟨(hcanonical (fun e => by rw [hlive]) (by decide)).2, by decide⟩

end BytecodeKernel
