import BytecodeKernel.Proofs.Machine.Sessions
/-!
Isolation of the objects of a session. In every session that can be reached, the live blocks are the
regions of the objects and the loose blocks, each apart from the others. A step that does not touch
an object leaves it as it is, down to its bytes, and no step writes to an image. In whatever order
the objects are dropped in the end, nothing is left of them.
-/

namespace BytecodeKernel

/-- Two regions without a common address. -/
def Apart (r q : Nat × Nat) : Prop :=
  r.1 + r.2 ≤ q.1 ∨ q.1 + q.2 ≤ r.1

namespace Session

/-- The arena holds what the session accounts for, and that is all it holds. -/
structure Exact (s : Session) : Prop where
  owned : ∀ n x, s.find? n = some x → ∀ r ∈ x.regions, r ∈ s.arena.blocks.liveBlocks
  held : ∀ r ∈ s.loose, r ∈ s.arena.blocks.liveBlocks
  accounted : ∀ r ∈ s.arena.blocks.liveBlocks,
    r ∈ s.loose ∨ ∃ n x, s.find? n = some x ∧ r ∈ x.regions
  apart : ∀ n m x y, m ≠ n → s.find? n = some x → s.find? m = some y → ¬ x.Shares y →
    ∀ r ∈ x.regions, ∀ q ∈ y.regions, Apart r q
  shared : ∀ n m x y, s.find? n = some x → s.find? m = some y → x.Shares y →
    x.regions = y.regions
  pieces : ∀ n x, s.find? n = some x → x.regions.Pairwise Apart
  loose_pieces : s.loose.Pairwise Apart
  loose_apart : ∀ n x, s.find? n = some x → ∀ r ∈ x.regions, ∀ q ∈ s.loose, Apart r q
  /-- A region that grows or shrinks by two steps still has a size in 32 bits. -/
  stacks_small : ∀ id t, s.find? (.stack id) = some (.stack t) →
    t.top ≤ t.size ∧ t.depth ≤ maxFrames ∧ t.size + 2 * growBytes < addressLimit

/-- From one session to a later one, the objects that were not touched are the same, and so are
their bytes. An image keeps its bytes for as long as it is there. -/
structure Untouched (T : Set Name) (s t : Session) : Prop where
  kept : ∀ n, n ∉ T → t.find? n = s.find? n
  bytes : ∀ n x, n ∉ T → s.find? n = some x → ∀ r ∈ x.regions, ∀ addr, r.1 ≤ addr →
    addr < r.1 + r.2 → t.arena.store.get addr = s.arena.store.get addr
  images : ∀ n i, t.find? n = some (.image i) → i.loading < s.loadings →
    (∃ m j, s.find? m = some (.image j) ∧ j.block = i.block) ∧
      ∀ addr, i.image.base ≤ addr → addr < i.image.base + i.image.length →
        t.arena.store.get addr = s.arena.store.get addr

/-- No block is live, and the free addresses are one range. -/
def Whole (a : Arena) : Prop :=
  a.blocks.liveBlocks = [] ∧
    a.blocks.freeRanges = if a.capacity = 0 then [] else [(1, 1 + a.capacity)]

/-- Drops objects one after the other. -/
def dropAll (s : Session) (names : List Name) : Session :=
  names.foldl (fun s n => s.perform (.drop n)) s

variable {frame : List (Nat × Nat)} {T : Set Name} {s t : Session}

/-- The regions of one object come first, then those of others and the loose blocks. -/
theorem Settled.exists_owns (hs : s.Settled frame) {n : Name} {x : Thing}
    (hn : s.find? n = some x) :
    ∃ rest, s.arena.Owns (x.regions ++ rest) ∧ (∀ q ∈ s.loose, q ∈ rest) ∧
      ∀ m y, m ≠ n → s.find? m = some y → ¬ x.Shares y → ∀ q ∈ y.regions, q ∈ rest := by
  obtain ⟨rest, hperm, hothers⟩ := Holdings.exists_perm_append hn
  refine ⟨rest ++ (s.loose ++ frame), ?_, ?_, ?_⟩
  · rw [← List.append_assoc]
    exact hs.owns.perm (hperm.append_right _)
  · intro q hq
    exact List.mem_append_right _ (List.mem_append_left _ hq)
  · intro m y hne hm hshares q hq
    exact List.mem_append_left _ (hothers m y hne hm hshares q hq)

theorem Settled.owned (hs : s.Settled frame) {n : Name} {x : Thing} (hn : s.find? n = some x)
    {r : Nat × Nat} (hr : r ∈ x.regions) : r ∈ s.arena.blocks.liveBlocks :=
  hs.owns.mem_iff.2 (List.mem_append_left _ (Holdings.mem_regions.2 ⟨n, x, hn, hr⟩))

theorem Settled.shared_regions (hs : s.Settled frame) {n m : Name} {x y : Thing}
    (hn : s.find? n = some x) (hm : s.find? m = some y) (hshares : x.Shares y) :
    x.regions = y.regions := by
  cases n with
  | heap id =>
    obtain ⟨h, -, rfl⟩ := Option.map_eq_some_iff.1 hn
    exact hshares.elim
  | stack id =>
    obtain ⟨u, -, rfl⟩ := Option.map_eq_some_iff.1 hn
    exact hshares.elim
  | image id =>
    obtain ⟨i, hi, rfl⟩ := Option.map_eq_some_iff.1 hn
    cases m with
    | heap id => obtain ⟨h, -, rfl⟩ := Option.map_eq_some_iff.1 hm; exact hshares.elim
    | stack id => obtain ⟨u, -, rfl⟩ := Option.map_eq_some_iff.1 hm; exact hshares.elim
    | image id' =>
      obtain ⟨j, hj, rfl⟩ := Option.map_eq_some_iff.1 hm
      have hblock := Workspace.Settled.shared hs i.block (Holdings.mem_blocks.2 ⟨id, i, hi, rfl⟩)
        j.block (Holdings.mem_blocks.2 ⟨id', j, hj, rfl⟩) hshares
      have hregion : i.image.region = j.image.region := congrArg Prod.snd hblock
      simp only [Thing.regions, hregion]

/-- A live stack fits in the arena, which stays well below the last address. -/
theorem Settled.stacks_small (hs : s.Settled frame)
    (hlimit : s.arena.limit + 2 * growBytes < addressLimit) {id : Nat} {u : Stack}
    (hu : s.find? (.stack id) = some (.stack u)) :
    u.top ≤ u.size ∧ u.depth ≤ maxFrames ∧ u.size + 2 * growBytes < addressLimit := by
  have hid : s.stackTable[id]? = some u := by
    obtain ⟨v, hv, heq⟩ := Option.map_eq_some_iff.1 hu
    cases heq
    exact hv
  have hbounded := Workspace.Settled.bounded hs id u hid
  have hlive := hs.owned hu (List.mem_cons_self (a := u.operandRegion))
  have hrange : s.arena.InRange u.base u.size := hs.owns.sound.inRange_of_mem hlive
  have hcapacity : s.arena.capacity ≤ s.arena.limit := hs.owns.sound.capacity_le
  obtain ⟨hnull, hend⟩ := hrange
  exact ⟨hbounded.top_le, hbounded.depth_le, by omega⟩

theorem Settled.exact (hs : s.Settled [])
    (hlimit : s.arena.limit + 2 * growBytes < addressLimit) : s.Exact where
  owned n x hn r hr := hs.owned hn hr
  held r hr := hs.owns.mem_iff.2 (List.mem_append_right _ (List.mem_append_left _ hr))
  accounted r hr := by
    rcases List.mem_append.1 (hs.owns.mem_iff.1 hr) with h | h
    · exact .inr (Holdings.mem_regions.1 h)
    · rw [List.append_nil] at h
      exact .inl h
  apart n m x y hne hn hm hshares r hr q hq := by
    obtain ⟨rest, howns, -, hothers⟩ := hs.exists_owns hn
    exact (List.pairwise_append.1 howns.disjoint).2.2 r hr q (hothers m y hne hm hshares q hq)
  shared n m x y hn hm hshares := hs.shared_regions hn hm hshares
  pieces n x hn := by
    obtain ⟨rest, howns, -⟩ := hs.exists_owns hn
    exact (List.pairwise_append.1 howns.disjoint).1
  loose_pieces := by
    have hall := (List.pairwise_append.1 hs.owns.disjoint).2.1
    exact (List.pairwise_append.1 hall).1
  loose_apart n x hn r hr q hq := by
    obtain ⟨rest, howns, hloose, -⟩ := hs.exists_owns hn
    exact (List.pairwise_append.1 howns.disjoint).2.2 r hr q (hloose q hq)
  stacks_small id u hu := hs.stacks_small hlimit hu

theorem Steps.untouched (h : Steps T frame s t) : s.Untouched T t where
  kept := h.2.find
  bytes n x hn hx r hr addr hle hlt := (h.2.bytes n x hn hx).bytes r hr addr hle hlt
  images n i hi hloading := by
    have hmem : i.block ∈ t.workspace.blocks := by
      cases n with
      | heap id => obtain ⟨h, -, heq⟩ := Option.map_eq_some_iff.1 hi; cases heq
      | stack id => obtain ⟨u, -, heq⟩ := Option.map_eq_some_iff.1 hi; cases heq
      | image id =>
        obtain ⟨j, hj, heq⟩ := Option.map_eq_some_iff.1 hi
        cases heq
        exact Holdings.mem_blocks.2 ⟨id, i, hj, rfl⟩
    rcases h.2.blocks i.block hmem with hnew | ⟨hold, hspares⟩
    · exact absurd hloading (Nat.not_lt.2 hnew)
    · obtain ⟨m, j, hj, hblock⟩ := Holdings.mem_blocks.1 hold
      refine ⟨⟨.image m, j, Option.map_eq_some_iff.2 ⟨j, hj, rfl⟩, hblock⟩, ?_⟩
      intro addr hle hlt
      exact hspares.bytes _ List.mem_cons_self addr hle hlt

/-! ### The end of a session -/

theorem Settled.find?_drop (hs : s.Settled frame) (n m : Name) :
    (s.perform (.drop n)).find? m = if m = n then none else s.find? m := by
  have hsteps : Steps {n} frame s (s.perform (.drop n)) := hs.steps_perform trivial
  split
  · rename_i heq
    subst heq
    cases m with
    | heap id => exact (Workspace.Settled.dropHeap hs id).2.2
    | stack id => exact (Workspace.Settled.dropStack hs id).2.2
    | image id => exact (Workspace.Settled.dropImage hs id).2.2
  · rename_i hne
    exact hsteps.2.find m hne

theorem loose_drop (s : Session) (n : Name) : (s.perform (.drop n)).loose = s.loose := by
  cases n <;> rfl

/-- Dropping takes out the named objects and no others, in whatever order. -/
theorem Settled.dropAll (hs : s.Settled frame) (names : List Name) :
    (s.dropAll names).Settled frame ∧ (s.dropAll names).loose = s.loose ∧
      ∀ m, (s.dropAll names).find? m = if m ∈ names then none else s.find? m := by
  induction names generalizing s with
  | nil => exact ⟨hs, rfl, fun m => by simp [Session.dropAll]⟩
  | cons n names ih =>
    have hdrop : Steps {n} frame s (s.perform (.drop n)) := hs.steps_perform trivial
    obtain ⟨hsettled, hloose, hfind⟩ := ih hdrop.1
    refine ⟨hsettled, hloose.trans (loose_drop s n), fun m => ?_⟩
    have hm := hfind m
    rw [hs.find?_drop] at hm
    simp only [List.mem_cons]
    rw [show s.dropAll (n :: names) = (s.perform (.drop n)).dropAll names from rfl, hm]
    by_cases hmem : m ∈ names <;> by_cases heq : m = n <;> simp [hmem, heq]

/-- An arena in order with no live block is whole. -/
theorem whole_of_owns_nil {a : Arena} (ha : a.Owns []) : Whole a := by
  have hlive : a.blocks.liveBlocks = [] := ha.live.eq_nil
  have hblocks := Blocks.eq_ofSize ha.sound.tidy hlive
  refine ⟨hlive, ?_⟩
  rw [hblocks, Blocks.freeRanges_ofSize, ha.sound.origin, ha.sound.extent]

theorem Settled.whole (hs : s.Settled []) (hloose : s.loose = [])
    (hnone : ∀ n, s.find? n = none) : Whole s.arena := by
  have hregions : s.regions = [] := by
    refine List.eq_nil_iff_forall_not_mem.2 fun r hr => ?_
    obtain ⟨n, x, hx, -⟩ := Holdings.mem_regions.1 hr
    rw [hnone n] at hx
    contradiction
  have howns : s.arena.Owns (s.regions ++ (s.loose ++ [])) := hs.owns
  rw [hregions, hloose] at howns
  exact whole_of_owns_nil howns

/-- Isolation, from any session that can be reached to any that follows it. -/
theorem isolation {capacity limit : Nat} {T U : Set Name} {s t : Session}
    (hlimit : (opened capacity limit).arena.limit + 512 < addressLimit)
    (hs : Reaches T (opened capacity limit) s) (ht : Reaches U s t) :
    t.Exact ∧ s.Untouched U t ∧
      ∀ names, (∀ n, t.find? n ≠ none → n ∈ names) → t.loose = [] →
        Whole (t.dropAll names).arena := by
  have hfirst := hs.steps [] (settled_opened capacity limit)
  have hthen := ht.steps [] hfirst.1
  -- No step changes the limit of the arena.
  have hsame : t.arena.limit = (opened capacity limit).arena.limit :=
    hthen.2.frame.limit.trans hfirst.2.frame.limit
  refine ⟨hthen.1.exact ?_, hthen.untouched, ?_⟩
  · rw [hsame]
    exact hlimit
  · intro names hnames hloose
    obtain ⟨hsettled, hkept, hfind⟩ := hthen.1.dropAll names
    refine hsettled.whole (hkept.trans hloose) fun n => ?_
    rw [hfind]
    by_cases hmem : n ∈ names
    · rw [if_pos hmem]
    · rw [if_neg hmem]
      exact not_not.1 (mt (hnames n) hmem)

/-! ### A program whose host acts in the session -/

/-- A call as a service of a host. -/
def act {γ : Type} (c : Call) : HostM (γ × Estate) Unit := fun s =>
  let t := perform { s.1.2 with arena := s.2 } c
  .ok () ((s.1.1, t.toEstate), t.arena)

/-- Gives its only child a heap, for as long as the child waits to be dispatched. -/
def nursery : Host (Unit × Estate) where
  spawn _ _ _ := do
    act (.newHeap 5 64)
    return 5
  bind _ _ := pure ()
  dispatch _ := act (.drop (.heap 5))
  print _ _ := pure ()

/-- A heap, a stack, and a program that spawns, prints a text of its own and ends in a fault. -/
def furnished : Session :=
  (((opened 4096 8192).perform (.newHeap 0 128)).perform (.newStack 0 64)).perform
    (.loadImage 0 [2, 0, 0, 0, 1, 0, 0, 28, 0, 2, 104, 105, 29, 255])

def furnishedRunner : Runner (Unit × Estate) where
  origin := 0
  image := { base := 193, length := 14, entry := 0 }
  host := nursery

def afterRun : Session :=
  furnished.run furnishedRunner 9 0 () 0 0

def furnishedNames : Set Name :=
  {.heap 0, .stack 0, .image 0}

def runNames : Set Name :=
  {.heap 0, .stack 0, .heap 5}

theorem reaches_furnished : Reaches furnishedNames (opened 4096 8192) furnished := by
  refine .trans (.trans (.call _ (.newHeap 0 128) trivial ?_) (.call _ (.newStack 0 64) trivial ?_))
    (.call _ (.loadImage 0 _) trivial ?_)
  · exact Set.singleton_subset_iff.2 (.inl rfl)
  · exact Set.singleton_subset_iff.2 (.inr (.inl rfl))
  · exact Set.singleton_subset_iff.2 (.inr (.inr rfl))

theorem reaches_afterRun : Reaches runNames furnished afterRun := by
  have himage : ∃ i, furnished.imageTable[0]? = some i ∧ furnishedRunner.image = i.image := by
    have h : furnished.imageTable[0]?.map (·.image) = some furnishedRunner.image := by
      decide +kernel
    obtain ⟨i, hi, heq⟩ := Option.map_eq_some_iff.1 h
    exact ⟨i, hi, heq.symm⟩
  obtain ⟨i, hi, heq⟩ := himage
  refine .run (U := {.heap 5}) furnished furnishedRunner 9 0 () 0 0 0 i ?_ (.inl rfl)
    (.inr (.inl rfl)) (by simp) (by simp) hi heq (by simp) ?_ ?_ ?_ ?_
  · exact Set.singleton_subset_iff.2 (.inr (.inr rfl))
  · exact fun v _ _ _ => .call v (.newHeap 5 64) trivial subset_rfl
  · exact fun v _ _ _ => .refl _ v
  · exact fun v _ _ => .call v (.drop (.heap 5)) trivial subset_rfl
  · exact fun v _ _ => .refl _ v

theorem find?_afterRun {n : Name} (hn : afterRun.find? n ≠ none) :
    n ∈ furnishedNames ∪ runNames := by
  -- What neither step touches was not there in the beginning either.
  by_contra hmem
  have hfirst := reaches_furnished.steps [] (settled_opened 4096 8192)
  have hthen := reaches_afterRun.steps [] hfirst.1
  have hnone : (opened 4096 8192).workspace.find? n = none := by
    cases n <;> simp [opened, workspace, Holdings.find?]
  have hkept := hfirst.2.find n fun h => hmem (.inl h)
  exact hn ((hthen.2.find n fun h => hmem (.inr h)).trans (hkept.trans hnone))

/-- The run leaves the child's heap behind. Nothing else has come or gone, and all of it can be
dropped in any order. -/
theorem isolation_of_nursery :
    (opened 4096 8192).arena.limit + 512 < addressLimit ∧
      Reaches furnishedNames (opened 4096 8192) furnished ∧ Reaches runNames furnished afterRun ∧
      (afterRun.find? (.heap 5)).isSome ∧ afterRun.Exact ∧ furnished.Untouched runNames afterRun ∧
      Whole (afterRun.dropAll [.image 0, .heap 5, .stack 0, .heap 0]).arena := by
  have hlimit : (opened 4096 8192).arena.limit + 512 < addressLimit := by decide
  obtain ⟨hexact, huntouched, hwhole⟩ := isolation hlimit reaches_furnished reaches_afterRun
  refine ⟨hlimit, reaches_furnished, reaches_afterRun, by decide +kernel, hexact, huntouched, ?_⟩
  refine hwhole _ (fun n hn => ?_) (by decide +kernel)
  rcases find?_afterRun hn with (rfl | rfl | rfl) | (rfl | rfl | rfl) <;> decide

end Session

end BytecodeKernel
