import BytecodeKernel.Proofs.Memory.Segments
import Mathlib.Data.List.Basic
import Mathlib.Algebra.Ring.Nat
/-!
The same block tables kept as two maps, the size of each live block and the end of each free range,
both by start. Here nothing tiles by itself: a block that is released is entered among the free
ranges and has to be merged with the range behind it and the range in front of it. Sums and
differences are those of 32 bits and have no value where they would wrap.

The main lemmas say that from the two views of a segment list in normal form the maps go to the two
views of the list after the operation, and that no sum or difference is without value on the way.
-/

namespace BytecodeKernel

structure Tables where
  /-- The size of each live block, by its start. -/
  allocated : List (Nat × Nat)
  /-- The exclusive end of each free range, by its start. -/
  available : List (Nat × Nat)

namespace Tables

def lookup? (key : Nat) (entries : List (Nat × Nat)) : Option Nat :=
  (entries.find? (·.1 = key)).map (·.2)

def remove (key : Nat) (entries : List (Nat × Nat)) : List (Nat × Nat) :=
  entries.filter (·.1 ≠ key)

/-- Enters a value in the order of the keys, in place of one under the same key. -/
def insert (key value : Nat) : List (Nat × Nat) → List (Nat × Nat)
  | [] => [(key, value)]
  | e :: rest =>
    if key < e.1 then (key, value) :: e :: rest
    else if key = e.1 then (key, value) :: rest
    else e :: insert key value rest

/-- The first free range that is large enough. -/
def fit? (size : Nat) : List (Nat × Nat) → Option (Option (Nat × Nat))
  | [] => some none
  | (start, stop) :: rest => do
    let length ← Address.offsetFrom? stop start
    if size ≤ length then return some (start, stop)
    fit? size rest

/-- The size of the largest free range, zero if there is none. -/
def largest? : List (Nat × Nat) → Option Nat
  | [] => some 0
  | (start, stop) :: rest => do
    let length ← Address.offsetFrom? stop start
    return max length (← largest? rest)

/-- The sum of the free lengths. -/
def freeBytes? : List (Nat × Nat) → Option Nat
  | [] => some 0
  | (start, stop) :: rest => do
    let length ← Address.offsetFrom? stop start
    return length + (← freeBytes? rest)

/-- The sum of the live sizes. -/
def liveBytes (allocated : List (Nat × Nat)) : Nat :=
  (allocated.map (·.2)).sum

theorem length_remove_lt {key value : Nat} {entries : List (Nat × Nat)}
    (h : lookup? key entries = some value) : (remove key entries).length < entries.length := by
  obtain ⟨e, he, -⟩ := Option.map_eq_some_iff.1 h
  refine List.length_filter_lt_length_iff_exists.2 ⟨e, List.mem_of_find?_eq_some he, ?_⟩
  simpa using List.find?_some he

theorem length_remove_lt_of_mem {e : Nat × Nat} {entries : List (Nat × Nat)} (h : e ∈ entries) :
    (remove e.1 entries).length < entries.length :=
  List.length_filter_lt_length_iff_exists.2 ⟨e, h, by simp⟩

/-- Takes out the free range that starts at `stop`, then the one that starts where that ends, and so
on. Gives the end that is reached. -/
def absorbBehind (stop : Nat) (available : List (Nat × Nat)) : Nat × List (Nat × Nat) :=
  match _h : lookup? stop available with
  | none => (stop, available)
  | some next => absorbBehind next (remove stop available)
termination_by available.length
decreasing_by exact length_remove_lt _h

/-- The entry with the greatest key below a bound. -/
def predecessor? (bound : Nat) (entries : List (Nat × Nat)) : Option (Nat × Nat) :=
  (entries.filter (·.1 < bound)).getLast?

theorem mem_of_predecessor? {bound : Nat} {entries : List (Nat × Nat)} {e : Nat × Nat}
    (h : predecessor? bound entries = some e) : e ∈ entries :=
  (List.mem_filter.1 (List.mem_of_getLast? h)).1

/-- Takes out the free range that ends at `start`, then the one that ends where that starts, and so
on. Gives the start that is reached. -/
def absorbInFront (start : Nat) (available : List (Nat × Nat)) : Nat × List (Nat × Nat) :=
  match _h : predecessor? start available with
  | none => (start, available)
  | some (first, stop) =>
    if stop = start then absorbInFront first (remove first available) else (start, available)
termination_by available.length
decreasing_by exact length_remove_lt_of_mem (mem_of_predecessor? _h)

/-- Enters a free range, merged with those it touches. -/
def insertFree (start stop : Nat) (available : List (Nat × Nat)) : List (Nat × Nat) :=
  let (stop, available) := absorbBehind stop available
  let (start, available) := absorbInFront start available
  insert start stop available

/-- First fit, lowest address first. -/
def allocate? (t : Tables) (size : Nat) : Option (Except MemoryError (Nat × Tables)) :=
  if size = 0 then some (.error .zeroSize)
  else do
    match ← fit? size t.available with
    | none => return .error (.outOfMemory size (← largest? t.available))
    | some (start, stop) =>
      let length ← Address.offsetFrom? stop start
      let allocated := insert start size t.allocated
      let rest := remove start t.available
      if length ≤ size then return .ok (start, { allocated, available := rest })
      let remainder ← Address.add? start size
      return .ok (start, { allocated, available := insert remainder stop rest })

/-- Frees the live block that starts at an address. -/
def release? (t : Tables) (addr : Nat) : Option (Except MemoryError Tables) :=
  match lookup? addr t.allocated with
  | none => some (.error (.invalidPointer addr))
  | some size => do
    let stop ← Address.add? addr size
    return .ok
      { allocated := remove addr t.allocated
        available := insertFree addr stop t.available }

/-- Adds a free range. -/
def extend (t : Tables) (start stop : Nat) : Tables :=
  if start < stop then { t with available := insertFree start stop t.available } else t

/-- The two views of a segment list. -/
def ofBlocks (b : Blocks) : Tables :=
  ⟨b.liveBlocks, b.freeRanges⟩

/-! ### Maps around a key -/

theorem lookup?_middle {front back : List (Nat × Nat)} {key value : Nat}
    (hfront : ∀ e ∈ front, e.1 < key) :
    lookup? key (front ++ (key, value) :: back) = some value := by
  have hnone : front.find? (·.1 = key) = none :=
    List.find?_eq_none.2 fun e he => by simpa using Nat.ne_of_lt (hfront e he)
  simp [lookup?, List.find?_append, hnone]

theorem lookup?_eq_none {entries : List (Nat × Nat)} {key : Nat} (h : ∀ e ∈ entries, e.1 ≠ key) :
    lookup? key entries = none := by
  simpa [lookup?] using fun a b he => h (a, b) he

theorem lookup?_isSome_of_mem {entries : List (Nat × Nat)} {key value : Nat}
    (h : (key, value) ∈ entries) : ∃ found, lookup? key entries = some found := by
  have hsome : (entries.find? (·.1 = key)).isSome := List.find?_isSome.2 ⟨_, h, by simp⟩
  obtain ⟨e, he⟩ := Option.isSome_iff_exists.1 hsome
  exact ⟨e.2, by rw [lookup?, he, Option.map_some]⟩

theorem remove_middle {front back : List (Nat × Nat)} {key value : Nat}
    (hfront : ∀ e ∈ front, e.1 < key) (hback : ∀ e ∈ back, key < e.1) :
    remove key (front ++ (key, value) :: back) = front ++ back := by
  have hf : front.filter (·.1 ≠ key) = front :=
    List.filter_eq_self.2 fun e he => by simpa using Nat.ne_of_lt (hfront e he)
  have hb : back.filter (·.1 ≠ key) = back :=
    List.filter_eq_self.2 fun e he => by simpa using Nat.ne_of_gt (hback e he)
  rw [remove, List.filter_append, hf, List.filter_cons_of_neg (by simp), hb]

theorem insert_middle {front back : List (Nat × Nat)} {key value : Nat}
    (hfront : ∀ e ∈ front, e.1 < key) (hback : ∀ e ∈ back, key < e.1) :
    insert key value (front ++ back) = front ++ (key, value) :: back := by
  induction front with
  | nil =>
    cases back with
    | nil => rfl
    | cons e back => simp [insert, hback e (by simp)]
  | cons e front ih =>
    have he : e.1 < key := hfront e (by simp)
    rw [List.cons_append, insert, if_neg (by omega), if_neg (by omega),
      ih fun e' he' => hfront e' (by simp [he']), List.cons_append]

theorem predecessor?_middle {front back : List (Nat × Nat)} {bound : Nat}
    (hfront : ∀ e ∈ front, e.1 < bound) (hback : ∀ e ∈ back, bound < e.1) :
    predecessor? bound (front ++ back) = front.getLast? := by
  have hf : front.filter (·.1 < bound) = front :=
    List.filter_eq_self.2 fun e he => by simpa using hfront e he
  have hb : back.filter (·.1 < bound) = [] :=
    List.filter_eq_nil_iff.2 fun e he => by simpa using Nat.le_of_lt (hback e he)
  rw [predecessor?, List.filter_append, hf, hb, List.append_nil]

theorem fit?_skip {n : Nat} {front : List (Nat × Nat)} (back : List (Nat × Nat))
    (h : ∀ r ∈ front, r.1 ≤ r.2 ∧ r.2 - r.1 < n) : fit? n (front ++ back) = fit? n back := by
  induction front with
  | nil => rfl
  | cons r front ih =>
    obtain ⟨hle, hsmall⟩ := h r (by simp)
    rw [List.cons_append, fit?, ih fun r' hr' => h r' (by simp [hr'])]
    simp [Address.offsetFrom?, hle, Nat.not_le.2 hsmall]

/-! ### The views of segment lists -/

open Segment

theorem keys_before {o : Nat} {front : List Segment} (h : Tidy front) :
    ∀ r ∈ Segment.freeRanges o front, r.1 < o + Segment.extent front := fun r hr => by
  have hpos := freeRanges_pos h hr
  have hend := (end_le_of_mem_freeRanges hr).2
  omega

theorem live_keys_before {o : Nat} {front : List Segment} (h : Tidy front) :
    ∀ e ∈ Segment.liveBlocks o front, e.1 < o + Segment.extent front := fun e he => by
  have hpos := liveBlocks_pos h he
  have hend := end_le_of_mem_liveBlocks he
  omega

theorem sizes_small {n o : Nat} {front : List Segment} (h : ∀ k, Segment.free k ∈ front → k < n) :
    ∀ r ∈ Segment.freeRanges o front, r.1 ≤ r.2 ∧ r.2 - r.1 < n := fun r hr => by
  obtain ⟨k, hk, heq⟩ := exists_of_mem_freeRanges hr
  have := h k hk
  omega

/-- Nothing starts where the range ends. -/
theorem absorbBehind_apart {stop : Nat} {available : List (Nat × Nat)}
    (h : ∀ e ∈ available, e.1 ≠ stop) : absorbBehind stop available = (stop, available) := by
  have hnone := lookup?_eq_none h
  rw [absorbBehind]
  split
  · rfl
  · simp_all

theorem absorbBehind_of_lookup? {stop next : Nat} {available : List (Nat × Nat)}
    (h : lookup? stop available = some next) :
    absorbBehind stop available = absorbBehind next (remove stop available) := by
  rw [absorbBehind]
  split
  · simp_all
  · simp_all

/-- Nothing ends where the range starts. -/
theorem absorbInFront_apart {start : Nat} {available : List (Nat × Nat)}
    (h : ∀ e ∈ available, e.2 ≠ start) : absorbInFront start available = (start, available) := by
  rw [absorbInFront]
  split
  · rfl
  · rename_i hpred
    rw [if_neg (h _ (mem_of_predecessor? hpred))]

theorem absorbInFront_of_predecessor? {start first : Nat} {available : List (Nat × Nat)}
    (h : predecessor? start available = some (first, start)) :
    absorbInFront start available = absorbInFront first (remove first available) := by
  rw [absorbInFront]
  split
  · simp_all
  · rename_i hpred
    obtain ⟨rfl, rfl⟩ : first = _ ∧ start = _ := by simpa [h] using hpred
    rw [if_pos rfl]

/-- Merging behind finds the segment that `join` finds. -/
theorem absorbBehind_freeRanges {x n : Nat} {front : List (Nat × Nat)} {back : List Segment}
    (hback : Tidy back) (hn : 0 < n) (hfront : ∀ e ∈ front, e.1 < x) :
    ∃ k rest, join (.free n) back = .free k :: rest ∧
      absorbBehind (x + n) (front ++ Segment.freeRanges (x + n) back)
        = (x + k, front ++ Segment.freeRanges (x + k) rest) := by
  have hapart {k : Nat} {rest : List Segment} (h : Tidy (.free k :: rest)) :
      ∀ e ∈ front ++ Segment.freeRanges (x + k) rest, e.1 ≠ x + k := fun e he => by
    rcases List.mem_append.1 he with he | he
    · have := hfront e he
      omega
    · exact Nat.ne_of_gt (lt_start_of_behind_free h he)
  have hjoin : Tidy (join (.free n) back) := hback.join hn
  -- One step behind at most: what follows a free segment is live.
  match back, hback with
  | [], _ => exact ⟨n, [], rfl, absorbBehind_apart (hapart hjoin)⟩
  | .live m :: rest, _ => exact ⟨n, .live m :: rest, rfl, absorbBehind_apart (hapart hjoin)⟩
  | .free m :: rest, hback =>
    have hfront' : ∀ e ∈ front, e.1 < x + n := fun e he => Nat.lt_add_right n (hfront e he)
    have hback' : ∀ e ∈ Segment.freeRanges (x + n + m) rest, x + n < e.1 := fun e he =>
      Nat.lt_trans (Nat.lt_add_of_pos_right hback.head_pos) (lt_start_of_behind_free hback he)
    have hlookup : lookup? (x + n) (front ++ Segment.freeRanges (x + n) (.free m :: rest))
        = some (x + n + m) := lookup?_middle hfront'
    have hremove : remove (x + n) (front ++ Segment.freeRanges (x + n) (.free m :: rest))
        = front ++ Segment.freeRanges (x + n + m) rest := remove_middle hfront' hback'
    refine ⟨n + m, rest, rfl, ?_⟩
    rw [absorbBehind_of_lookup? hlookup, hremove, Nat.add_assoc]
    exact absorbBehind_apart (hapart hjoin)

/-- A live segment in front of a range keeps it apart from all free ranges. -/
theorem absorbInFront_live {o m : Nat} {lead : List Segment} {back : List (Nat × Nat)}
    (hlead : Tidy (lead ++ [.live m]))
    (hback : ∀ e ∈ back, o + Segment.extent (lead ++ [.live m]) < e.1 ∧ e.1 < e.2) :
    absorbInFront (o + Segment.extent (lead ++ [.live m]))
        (Segment.freeRanges o (lead ++ [.live m]) ++ back)
      = (o + Segment.extent (lead ++ [.live m]),
          Segment.freeRanges o (lead ++ [.live m]) ++ back) := by
  have hm : 0 < m := hlead.pos (.live m) (by simp)
  have hextent : Segment.extent (lead ++ [.live m]) = Segment.extent lead + m := by
    simp [extent_append, size]
  refine absorbInFront_apart fun e he => ?_
  rcases List.mem_append.1 he with he | he
  · rw [freeRanges_append] at he
    have hfront : e ∈ Segment.freeRanges o lead := by simpa [Segment.freeRanges] using he
    have hend := (end_le_of_mem_freeRanges hfront).2
    omega
  · have := hback e he
    omega

/-- A free segment in front of a range is taken in. The one before it is live, so merging ends
there. -/
theorem absorbInFront_free {o m : Nat} {lead : List Segment} {back : List (Nat × Nat)}
    (hlead : Tidy (lead ++ [.free m]))
    (hback : ∀ e ∈ back, o + Segment.extent (lead ++ [.free m]) < e.1 ∧ e.1 < e.2) :
    absorbInFront (o + Segment.extent (lead ++ [.free m]))
        (Segment.freeRanges o (lead ++ [.free m]) ++ back)
      = (o + Segment.extent lead, Segment.freeRanges o lead ++ back) := by
  have hextent : Segment.extent (lead ++ [.free m]) = Segment.extent lead + m := by
    simp [extent_append, size]
  have hranges : Segment.freeRanges o (lead ++ [.free m]) ++ back
      = Segment.freeRanges o lead ++
        (o + Segment.extent lead, o + Segment.extent (lead ++ [.free m])) :: back := by
    simp [freeRanges_append, Segment.freeRanges, hextent, Nat.add_assoc]
  have hpred : predecessor? (o + Segment.extent (lead ++ [.free m]))
      (Segment.freeRanges o (lead ++ [.free m]) ++ back)
        = some (o + Segment.extent lead, o + Segment.extent (lead ++ [.free m])) := by
    rw [predecessor?_middle (keys_before hlead) fun e he => (hback e he).1]
    simp [freeRanges_append, Segment.freeRanges, hextent, Nat.add_assoc]
  have hremove : remove (o + Segment.extent lead)
      (Segment.freeRanges o (lead ++ [.free m]) ++ back)
        = Segment.freeRanges o lead ++ back := by
    rw [hranges]
    refine remove_middle (keys_before hlead.append_left) fun e he => ?_
    have := (hback e he).1
    omega
  rw [absorbInFront_of_predecessor? hpred, hremove]
  refine absorbInFront_apart fun e he => ?_
  rcases List.mem_append.1 he with he | he
  · exact Nat.ne_of_lt (end_lt_of_before_free hlead he)
  · have := hback e he
    omega

/-- Merging in front finds the segment that `join` finds. The ranges of `back` lie behind `x`. -/
theorem absorbInFront_freeRanges {o k : Nat} {front rest : List Segment} {back : List (Nat × Nat)}
    (hfront : Tidy front) (hrest : Tidy (.free k :: rest))
    (hback : ∀ e ∈ back, o + Segment.extent front < e.1 ∧ e.1 < e.2) :
    ∃ lead j, front.foldr join (.free k :: rest) = lead ++ .free (j + k) :: rest ∧
      o + Segment.extent lead + j = o + Segment.extent front ∧ Tidy lead ∧
      absorbInFront (o + Segment.extent front) (Segment.freeRanges o front ++ back)
        = (o + Segment.extent lead, Segment.freeRanges o lead ++ back) := by
  induction front using List.reverseRecOn with
  | nil =>
    refine ⟨[], 0, by simp, rfl, tidy_nil, absorbInFront_apart fun e he => ?_⟩
    have := hback e (by simpa [Segment.freeRanges] using he)
    omega
  | append_singleton lead s _ =>
    cases s with
    | live m =>
      refine ⟨lead ++ [.live m], 0, ?_, rfl, hfront, absorbInFront_live hfront hback⟩
      rw [foldr_join_eq_append, Nat.zero_add]
      exact hfront.append hrest (by simp [isFree])
    | free m =>
      have hlead : Tidy lead := hfront.append_left
      have hm : 0 < m := hfront.pos (.free m) (by simp)
      have hseam : ∀ s ∈ lead.getLast?, ∀ t ∈ (Segment.free (m + k) :: rest).head?,
          ¬ (s.isFree ∧ t.isFree) := by simpa [isFree] using hfront.seam
      have hmerged : Tidy (.free (m + k) :: rest) := hrest.resize_free (Nat.add_pos_left hm k)
      refine ⟨lead, m, ?_, ?_, hlead, absorbInFront_free hfront hback⟩
      · rw [List.foldr_append]
        exact foldr_join_eq_append (hlead.append hmerged hseam)
      · simp [extent_append, size, Nat.add_assoc]

/-- Entering a range among the free ranges is joining segments. -/
theorem insertFree_freeRanges {o n : Nat} {front back : List Segment} (hfront : Tidy front)
    (hback : Tidy back) (hn : 0 < n) :
    insertFree (o + Segment.extent front) (o + Segment.extent front + n)
        (Segment.freeRanges o front ++ Segment.freeRanges (o + Segment.extent front + n) back)
      = Segment.freeRanges o (front.foldr join (join (.free n) back)) := by
  obtain ⟨k, rest, hjoin, hbehind⟩ := absorbBehind_freeRanges hback hn (keys_before hfront)
  have hrest : Tidy (.free k :: rest) := hjoin ▸ hback.join hn
  have hk : 0 < k := hrest.head_pos
  have hafter : ∀ e ∈ Segment.freeRanges (o + Segment.extent front + k) rest,
      o + Segment.extent front < e.1 ∧ e.1 < e.2 := fun e he => by
    have := lt_start_of_behind_free hrest he
    exact ⟨by omega, freeRanges_pos hrest.tail he⟩
  obtain ⟨lead, j, hfold, hj, hlead, hinFront⟩ := absorbInFront_freeRanges hfront hrest hafter
  rw [insertFree, hbehind]
  simp only
  rw [hinFront, hjoin, hfold, freeRanges_append, Segment.freeRanges, ← Nat.add_assoc, hj]
  refine insert_middle (keys_before hlead) fun e he => ?_
  have := hafter e he
  omega

/-! ### The operations -/

variable {b : Blocks}

theorem largest?_freeRanges (o : Nat) (segments : List Segment) :
    largest? (Segment.freeRanges o segments)
      = some ((segments.map Segment.freeSize).foldr max 0) := by
  induction segments generalizing o with
  | nil => rfl
  | cons s rest ih =>
    cases s with
    | live n => simp [Segment.freeRanges, ih, freeSize]
    | free n => simp [Segment.freeRanges, largest?, ih, freeSize, Address.offsetFrom?]

theorem largest?_ofBlocks (b : Blocks) :
    largest? (ofBlocks b).available = some b.largestFree := by
  rw [ofBlocks, Blocks.freeRanges, largest?_freeRanges, Blocks.largestFree,
    List.foldr_eq_foldl]

theorem freeBytes?_freeRanges (b : Blocks) : freeBytes? b.freeRanges = some b.freeBytes := by
  have hsum (o : Nat) (segments : List Segment) :
      freeBytes? (Segment.freeRanges o segments)
        = some (Segment.total Segment.freeSize segments) := by
    induction segments generalizing o with
    | nil => rfl
    | cons s rest ih =>
      cases s with
      | live n => simp [Segment.freeRanges, ih, Segment.total, freeSize]
      | free n =>
        simp [Segment.freeRanges, freeBytes?, ih, Segment.total, freeSize, Address.offsetFrom?]
  exact hsum b.origin b.segments

theorem liveBytes_liveBlocks (b : Blocks) : liveBytes b.liveBlocks = b.liveBytes := by
  have hsum (o : Nat) (segments : List Segment) :
      ((Segment.liveBlocks o segments).map (·.2)).sum
        = Segment.total Segment.liveSize segments := by
    induction segments generalizing o with
    | nil => rfl
    | cons s rest ih =>
      cases s with
      | live n => simp [Segment.liveBlocks, ih, Segment.total, liveSize]
      | free n => simp [Segment.liveBlocks, ih, Segment.total, liveSize]
  exact hsum b.origin b.segments

/-- The end of a segment is an address, since all borders are. -/
theorem end_lt_of_split (h : b.Fits) {front back : List Segment} {s : Segment}
    (hsplit : b.segments = front ++ s :: back) :
    b.origin + Segment.extent front + s.size < addressLimit := by
  have hextent : Segment.extent front + s.size ≤ b.extent := by
    simp [Blocks.extent, hsplit, extent_append]
  have hbound := h.bound
  omega

/-- First fit finds room for a size at `x`, in a free segment of the list. -/
structure FindsRoom (b : Blocks) (size x : Nat) (front : List Segment) (m : Nat)
    (back : List Segment) : Prop where
  split : b.segments = front ++ .free m :: back
  small : ∀ k, Segment.free k ∈ front → k < size
  le : size ≤ m
  start : x = b.origin + Segment.extent front

namespace FindsRoom

variable {size x m : Nat} {front back : List Segment}

theorem available (h : FindsRoom b size x front m back) :
    (ofBlocks b).available
      = Segment.freeRanges b.origin front ++ (x, x + m) :: Segment.freeRanges (x + m) back := by
  simp [ofBlocks, Blocks.freeRanges, h.split, freeRanges_append, Segment.freeRanges, h.start]

theorem allocated (h : FindsRoom b size x front m back) :
    (ofBlocks b).allocated
      = Segment.liveBlocks b.origin front ++ Segment.liveBlocks (x + m) back := by
  simp [ofBlocks, Blocks.liveBlocks, h.split, liveBlocks_append, Segment.liveBlocks, h.start]

theorem fit?_eq (h : FindsRoom b size x front m back) :
    fit? size (ofBlocks b).available = some (some (x, x + m)) := by
  rw [h.available, fit?_skip _ (sizes_small h.small), fit?]
  simp [Address.offsetFrom?, h.le]

theorem tidy_front (h : FindsRoom b size x front m back) (htidy : Tidy b.segments) : Tidy front :=
  (h.split ▸ htidy).append_left

/-- Free ranges in front of `x` start below it, and those behind the segment above its end. -/
theorem before (h : FindsRoom b size x front m back) (htidy : Tidy b.segments) :
    ∀ e ∈ Segment.freeRanges b.origin front, e.1 < x :=
  h.start ▸ keys_before (h.tidy_front htidy)

theorem behind (h : FindsRoom b size x front m back) (htidy : Tidy b.segments) :
    ∀ e ∈ Segment.freeRanges (x + m) back, x + m < e.1 := fun _ he =>
  lt_start_of_behind_free (h.split ▸ htidy).append_right he

theorem insert_allocated (h : FindsRoom b size x front m back) (htidy : Tidy b.segments)
    (hsize : 0 < size) :
    insert x size (ofBlocks b).allocated
      = Segment.liveBlocks b.origin front ++ (x, size) :: Segment.liveBlocks (x + m) back := by
  rw [h.allocated]
  refine insert_middle (h.start ▸ live_keys_before (h.tidy_front htidy)) fun e he => ?_
  have hstart := le_start_of_mem_liveBlocks he
  have hle := h.le
  omega

theorem remove_available (h : FindsRoom b size x front m back) (htidy : Tidy b.segments) :
    remove x (ofBlocks b).available
      = Segment.freeRanges b.origin front ++ Segment.freeRanges (x + m) back := by
  rw [h.available]
  exact remove_middle (h.before htidy) fun e he => Nat.lt_of_le_of_lt (Nat.le_add_right x m)
    (h.behind htidy e he)

/-- What is left of the segment is entered in its place. -/
theorem insert_remainder (h : FindsRoom b size x front m back) (htidy : Tidy b.segments) :
    insert (x + size) (x + m)
        (Segment.freeRanges b.origin front ++ Segment.freeRanges (x + m) back)
      = Segment.freeRanges b.origin front ++
        (x + size, x + m) :: Segment.freeRanges (x + m) back := by
  refine insert_middle (fun e he => ?_) fun e he => ?_
  · exact Nat.lt_add_right size (h.before htidy e he)
  · have hbehind := h.behind htidy e he
    have hle := h.le
    omega

end FindsRoom

/-- Allocation from the maps is allocation from the segments, and nothing wraps. -/
theorem allocate?_ofBlocks (h : b.Fits) (size : Nat) :
    (ofBlocks b).allocate? size
      = some ((b.allocate size).map fun (addr, after) => (addr, ofBlocks after)) := by
  rw [allocate?, Blocks.allocate]
  split
  · rfl
  · rename_i hsize
    cases hcarve : carve? size b.segments with
    | none =>
      have hfit : fit? size (ofBlocks b).available = some none := by
        simpa [ofBlocks, Blocks.freeRanges, fit?] using
          fit?_skip [] (sizes_small (o := b.origin) (carve?_eq_none_iff.1 hcarve))
      simp [hfit, largest?_ofBlocks, Except.map]
    | some result =>
      obtain ⟨offset, after⟩ := result
      obtain ⟨front, m, back, hsplit, hsmall, hle, rfl, rfl⟩ := carve?_eq_some hcarve
      let x := b.origin + Segment.extent front
      have hroom : FindsRoom b size x front m back := ⟨hsplit, hsmall, hle, rfl⟩
      rw [hroom.fit?_eq]
      simp only [Option.bind_eq_bind, Option.bind_some, Address.offsetFrom?, Nat.le_add_right,
        if_true, Nat.add_sub_cancel_left, hroom.insert_allocated h.tidy (Nat.pos_of_ne_zero hsize),
        hroom.remove_available h.tidy]
      by_cases hexact : m = size
      · subst hexact
        simp [Except.map, ofBlocks, Blocks.liveBlocks, Blocks.freeRanges, liveBlocks_append,
          freeRanges_append, Segment.liveBlocks, Segment.freeRanges, x]
      · have hlt : x + size < addressLimit :=
          (Nat.add_le_add_left hle x).trans_lt (end_lt_of_split h hsplit)
        have hmore : ¬ m ≤ size := fun hless => hexact (Nat.le_antisymm hless hle)
        have hrest : x + size + (m - size) = x + m := by omega
        simp [Except.map, ofBlocks, Blocks.liveBlocks, Blocks.freeRanges, liveBlocks_append,
          freeRanges_append, Segment.liveBlocks, Segment.freeRanges, Address.add?, hlt,
          hroom.insert_remainder h.tidy, hexact, hmore, hrest, x]

/-- Release from the maps is release from the segments, and nothing wraps. -/
theorem release?_ofBlocks (h : b.Fits) (addr : Nat) :
    (ofBlocks b).release? addr = some ((b.release addr).map ofBlocks) := by
  cases hrelease : b.release addr with
  | error e =>
    -- A block under the address would have been released.
    have hnone : lookup? addr (ofBlocks b).allocated = none := by
      refine lookup?_eq_none fun e he => ?_
      rintro rfl
      obtain ⟨after, hafter⟩ := Blocks.exists_release h.tidy he
      rw [hafter] at hrelease
      contradiction
    obtain rfl := b.error_of_release hrelease
    simp [release?, hnone, Except.map]
  | ok after =>
    obtain ⟨offset, rfl, hvacate, horigin⟩ := Blocks.release_eq_ok hrelease
    obtain ⟨front, n, back, hsplit, rfl, hafter⟩ := vacate?_eq_some hvacate
    have htidy := hsplit ▸ h.tidy
    have hback : Tidy (.live n :: back) := htidy.append_right
    let x := b.origin + Segment.extent front
    have hlive : (ofBlocks b).allocated
        = Segment.liveBlocks b.origin front ++ (x, n) :: Segment.liveBlocks (x + n) back := by
      simp [ofBlocks, Blocks.liveBlocks, hsplit, liveBlocks_append, Segment.liveBlocks, x]
    have hfree : (ofBlocks b).available
        = Segment.freeRanges b.origin front ++ Segment.freeRanges (x + n) back := by
      simp [ofBlocks, Blocks.freeRanges, hsplit, freeRanges_append, Segment.freeRanges, x]
    have hfront : ∀ e ∈ Segment.liveBlocks b.origin front, e.1 < x :=
      live_keys_before htidy.append_left
    have hbehind : ∀ e ∈ Segment.liveBlocks (x + n) back, x < e.1 := fun e he =>
      Nat.lt_of_lt_of_le (Nat.lt_add_of_pos_right hback.head_pos) (le_start_of_mem_liveBlocks he)
    have hstop : x + n < addressLimit := end_lt_of_split h hsplit
    have hmerge : insertFree x (x + n) (ofBlocks b).available = after.freeRanges := by
      have hn : 0 < n := hback.head_pos
      rw [hfree, insertFree_freeRanges htidy.append_left hback.tail hn, Blocks.freeRanges, horigin,
        hafter]
    have hrest : remove x (ofBlocks b).allocated = after.liveBlocks := by
      rw [hlive, remove_middle hfront hbehind, Blocks.liveBlocks, horigin, hafter,
        liveBlocks_foldr_join, liveBlocks_append, liveBlocks_join]
      rfl
    have hlookup : lookup? x (ofBlocks b).allocated = some n := by
      rw [hlive]
      exact lookup?_middle hfront
    have hadd : Address.add? x n = some (x + n) := if_pos hstop
    show (ofBlocks b).release? x = _
    rw [release?, hlookup]
    simp only [hadd, Option.bind_eq_bind, Option.bind_some, hmerge, hrest]
    rfl

/-- Adding free space behind the last segment merges it with a free range that ends there. -/
theorem extend_ofBlocks (h : b.Fits) (size : Nat) :
    (ofBlocks b).extend (b.origin + b.extent) (b.origin + b.extent + size)
      = ofBlocks (b.extend size) := by
  by_cases hsize : size = 0
  · simp [extend, Blocks.extend, hsize]
  · have hlt : b.origin + b.extent < b.origin + b.extent + size := by omega
    have hmerge := insertFree_freeRanges (o := b.origin) h.tidy tidy_nil (Nat.pos_of_ne_zero hsize)
    rw [Segment.freeRanges, List.append_nil] at hmerge
    rw [extend, if_pos hlt, Blocks.extend, if_neg hsize]
    simp only [ofBlocks, Blocks.liveBlocks, Blocks.freeRanges, liveBlocks_foldr_join,
      liveBlocks_append, Segment.liveBlocks, List.append_nil, Tables.mk.injEq, true_and]
    exact hmerge

end Tables

end BytecodeKernel
