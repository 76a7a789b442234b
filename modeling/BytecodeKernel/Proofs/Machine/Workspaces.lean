import BytecodeKernel.Proofs.Machine.Holdings
import Mathlib.Data.Set.Insert
/-!
Workspaces in order. The live blocks are the regions of the objects and those of a frame, which is
whatever else lives in the arena. Every operation on one object is a chain of small moves: the
object is lent out of its table and its region joins the frame, the arena changes with the frame
spared, and the object is put back. What a move leaves undisturbed is stated apart, for each name it
does not touch.
-/

namespace BytecodeKernel

/-- The operands lie in their region, and the frames in theirs. -/
structure Stack.Bounded (t : Stack) : Prop where
  top_le : t.top ≤ t.size
  depth_le : t.depth ≤ maxFrames

/-- A program that is stored is written to a fresh block. -/
theorem Image.load_eq_ok {bytes : List UInt8} {a after : Arena} {image : Image}
    (h : Image.load bytes a = .ok (image, after)) :
    ∃ fresh, a.allocate bytes.length = .ok (image.base, fresh) ∧
      fresh.write image.base bytes = .ok after ∧ image.length = bytes.length ∧ image.entry = 0 := by
  unfold Image.load at h
  split at h
  · contradiction
  · obtain ⟨⟨base, fresh⟩, hallocate, h⟩ := ok_of_bind h
    obtain ⟨written, hwrite, hpair⟩ := ok_of_bind h
    cases hpair
    exact ⟨fresh, hallocate, hwrite, rfl, rfl⟩

namespace Workspace

structure Settled (frame : List (Nat × Nat)) (w : Workspace) : Prop where
  owns : w.arena.Owns (w.regions ++ frame)
  bounded : ∀ (id : Nat) t, w.stackTable[id]? = some t → t.Bounded
  loaded : ∀ b ∈ w.blocks, b.1 < w.loadings
  shared : ∀ b ∈ w.blocks, ∀ c ∈ w.blocks, b.1 = c.1 → b = c

/-- Untouched names keep their objects, and these keep their bytes. A block of images keeps its
bytes for as long as there is an image of it. -/
structure Undisturbed (touched : Set Name) (frame : List (Nat × Nat)) (w v : Workspace) : Prop where
  frame : Arena.Spares frame w.arena v.arena
  find : ∀ n, n ∉ touched → v.find? n = w.find? n
  bytes : ∀ n t, n ∉ touched → w.find? n = some t → Arena.Spares t.regions w.arena v.arena
  loadings : w.loadings ≤ v.loadings
  blocks : ∀ b ∈ v.blocks, w.loadings ≤ b.1 ∨ b ∈ w.blocks ∧ Arena.Spares [b.2] w.arena v.arena

variable {frame others : List (Nat × Nat)} {touched : Set Name} {w v u : Workspace}

theorem Undisturbed.refl (touched : Set Name) (frame : List (Nat × Nat)) (w : Workspace) :
    Undisturbed touched frame w w :=
  ⟨.refl _ _, fun _ _ => rfl, fun _ _ _ _ => .refl _ _, Nat.le_refl _,
    fun _ hb => .inr ⟨hb, .refl _ _⟩⟩

theorem Undisturbed.trans (hwv : Undisturbed touched frame w v)
    (hvu : Undisturbed touched frame v u) : Undisturbed touched frame w u where
  frame := hwv.frame.trans hvu.frame
  find n hn := (hvu.find n hn).trans (hwv.find n hn)
  bytes n t hn ht := (hwv.bytes n t hn ht).trans (hvu.bytes n t hn ((hwv.find n hn).trans ht))
  loadings := hwv.loadings.trans hvu.loadings
  blocks b hb := by
    rcases hvu.blocks b hb with hnew | ⟨hb, hsecond⟩
    · exact .inl (hwv.loadings.trans hnew)
    · rcases hwv.blocks b hb with hnew | ⟨hb, hfirst⟩
      · exact .inl hnew
      · exact .inr ⟨hb, hfirst.trans hsecond⟩

theorem Undisturbed.mono (h : Undisturbed touched frame w v) {more : Set Name}
    {less : List (Nat × Nat)} (hmore : touched ⊆ more) (hless : ∀ r ∈ less, r ∈ frame) :
    Undisturbed more less w v where
  frame := h.frame.subset hless
  find n hn := h.find n fun hmem => hn (hmore hmem)
  bytes n t hn := h.bytes n t fun hmem => hn (hmore hmem)
  loadings := h.loadings
  blocks := h.blocks

theorem region_mem_of_mem_blocks {e : Holdings} {b : Nat × Nat × Nat} (hb : b ∈ e.blocks) :
    b.2 ∈ e.regions :=
  List.mem_append_right _ (List.mem_append_right _ (List.mem_map_of_mem hb))

/-- A move of the arena alone. -/
theorem undisturbed_of_spares {a : Arena} (h : Arena.Spares (w.regions ++ frame) w.arena a) :
    Undisturbed ∅ frame w { w with arena := a } where
  frame := h.subset fun _ hr => List.mem_append_right _ hr
  find _ _ := rfl
  bytes n t _ ht := h.subset fun r hr =>
    List.mem_append_left _ (Holdings.mem_regions.2 ⟨n, t, ht, hr⟩)
  loadings := Nat.le_refl _
  blocks b hb := .inr ⟨hb, h.subset fun r hr => by
    rw [List.mem_singleton.1 hr]
    exact List.mem_append_left _ (region_mem_of_mem_blocks hb)⟩

/-- The workspace without one object, which still has its regions. -/
def lend (w : Workspace) (n : Name) : Workspace :=
  { w with toHoldings := w.without n }

theorem blocks_without_subset (e : Holdings) (n : Name) :
    ∀ b ∈ (e.without n).blocks, b ∈ e.blocks := by
  intro b hb
  cases n with
  | heap id => exact hb
  | stack id => exact hb
  | image id =>
    obtain ⟨j, i, hi, rfl⟩ := Holdings.mem_blocks.1 hb
    refine Holdings.mem_blocks.2 ⟨j, i, ?_, rfl⟩
    simp only [Holdings.without, Std.TreeMap.getElem?_erase] at hi
    split at hi
    · contradiction
    · exact hi

/-- A move at one name: the arena spares what belongs to others, and these stay in the tables. -/
theorem undisturbed_of_find {e : Holdings} {a : Arena} {n : Name}
    (hspares : Arena.Spares ((w.without n).regions ++ frame) w.arena a)
    (hfind : ∀ m, m ≠ n → e.find? m = w.find? m) (hloadings : w.loadings ≤ e.loadings)
    (hblocks : ∀ b ∈ e.blocks, w.loadings ≤ b.1 ∨ b ∈ (w.without n).blocks) :
    Undisturbed {n} frame w ⟨e, a⟩ where
  frame := hspares.subset fun _ hr => List.mem_append_right _ hr
  find := hfind
  bytes m t hm ht := hspares.subset fun r hr => by
    have hne : m ≠ n := hm
    refine List.mem_append_left _ (Holdings.mem_regions.2 ⟨m, t, ?_, hr⟩)
    rwa [Holdings.find?_without, if_neg hne]
  loadings := hloadings
  blocks b hb := by
    refine (hblocks b hb).imp_right fun hold => ⟨blocks_without_subset _ n b hold, ?_⟩
    refine hspares.subset fun r hr => ?_
    rw [List.mem_singleton.1 hr]
    exact List.mem_append_left _ (region_mem_of_mem_blocks hold)

theorem loadings_without (e : Holdings) (n : Name) : (e.without n).loadings = e.loadings := by
  cases n <;> rfl

theorem undisturbed_without {a : Arena} {n : Name}
    (hspares : Arena.Spares ((w.without n).regions ++ frame) w.arena a) :
    Undisturbed {n} frame w ⟨w.without n, a⟩ := by
  refine undisturbed_of_find hspares (fun m hm => ?_) ?_ fun b hb => .inr hb
  · rw [Holdings.find?_without, if_neg hm]
  · rw [loadings_without]

theorem Settled.withArena (h : w.Settled frame) {a : Arena}
    (howns : a.Owns (w.regions ++ others)) : Settled others { w with arena := a } :=
  ⟨howns, h.bounded, h.loaded, h.shared⟩

theorem Settled.reorder (h : w.Settled frame) (hperm : frame.Perm others) : w.Settled others :=
  h.withArena (h.owns.perm (hperm.append_left _))

/-- The region of an object that is lent joins the frame. -/
theorem Settled.lend (h : w.Settled frame) {n : Name} {regions : List (Nat × Nat)}
    (hperm : w.regions.Perm (regions ++ (w.without n).regions)) :
    (w.lend n).Settled (regions ++ frame) where
  owns := by
    refine h.owns.perm ((hperm.append_right frame).trans ?_)
    rw [List.append_assoc]
    exact List.perm_append_comm_assoc _ _ _
  bounded id t ht := by
    cases n with
    | heap j => exact h.bounded id t ht
    | image j => exact h.bounded id t ht
    | stack j =>
      simp only [Workspace.lend, Holdings.without, Std.TreeMap.getElem?_erase] at ht
      split at ht
      · contradiction
      · exact h.bounded id t ht
  loaded b hb := by
    have hold := h.loaded b (blocks_without_subset _ n b hb)
    rwa [← loadings_without w.toHoldings n] at hold
  shared b hb c hc := h.shared b (blocks_without_subset _ n b hb) c (blocks_without_subset _ n c hc)

theorem Settled.lend_of_none (h : w.Settled frame) {n : Name} (hn : w.find? n = none) :
    (w.lend n).Settled frame := by
  have hperm : w.regions.Perm ([] ++ (w.without n).regions) :=
    Holdings.regions_without_of_none hn
  exact h.lend hperm

/-! ### Heaps -/

theorem Settled.lendHeap (hw : w.Settled frame) {id : Nat} {h : Heap}
    (hid : w.heapTable[id]? = some h) : (w.lend (.heap id)).Settled (h.region :: frame) := by
  have hperm : w.regions.Perm ([h.region] ++ (w.without (.heap id)).regions) :=
    Holdings.regions_of_heap hid
  exact hw.lend hperm

theorem Settled.putHeap {id : Nat} {h : Heap}
    (hw : (w.lend (.heap id)).Settled (h.region :: frame)) :
    Settled frame { w with heapTable := w.heapTable.insert id h } where
  owns := by
    refine hw.owns.perm (List.perm_middle.trans ?_)
    exact ((Holdings.regions_insert_heap w.toHoldings id h).append_right frame).symm
  bounded := hw.bounded
  loaded := hw.loaded
  shared := hw.shared

theorem find?_putHeap (e : Holdings) (id : Nat) (h : Heap) {m : Name} (hm : m ≠ .heap id) :
    ({ e with heapTable := e.heapTable.insert id h } : Holdings).find? m = e.find? m := by
  cases m with
  | heap j =>
    have hj : id ≠ j := fun heq => hm (heq ▸ rfl)
    simp [Holdings.find?, Std.TreeMap.getElem?_insert, hj]
  | stack j => rfl
  | image j => rfl

theorem undisturbed_putHeap {a : Arena} (id : Nat) (h : Heap)
    (hspares : Arena.Spares ((w.without (.heap id)).regions ++ frame) w.arena a) :
    Undisturbed {.heap id} frame w
      { w with arena := a, heapTable := w.heapTable.insert id h } :=
  undisturbed_of_find hspares (fun _ hm => find?_putHeap w.toHoldings id h hm) (Nat.le_refl _)
    fun _ hb => .inr hb

/-- A heap that is lent is at home beside all else. -/
theorem Settled.heapHome {h : Heap} (hw : w.Settled (h.region :: frame)) :
    Heap.Home (w.regions ++ frame) w.arena (h, w.arena) :=
  ⟨hw.owns.perm List.perm_middle, .refl _ _⟩

theorem Settled.ofHeapHome {h : Heap} {a start : Arena} (hw : w.Settled others)
    (hh : Heap.Home (w.regions ++ frame) start (h, a)) :
    Settled (h.region :: frame) { w with arena := a } :=
  hw.withArena (hh.owns.perm List.perm_middle.symm)

theorem Settled.dropHeap (hw : w.Settled frame) (id : Nat) :
    (w.dropHeap id).Settled frame ∧ Undisturbed {.heap id} frame w (w.dropHeap id) ∧
      (w.dropHeap id).find? (.heap id) = none := by
  rw [Workspace.dropHeap]
  split
  · rename_i h hid
    have hlent := hw.lendHeap hid
    obtain ⟨howns, hspares⟩ := hlent.heapHome.release
    refine ⟨hlent.withArena howns, undisturbed_without hspares, ?_⟩
    simp [Holdings.find?]
  · rename_i hid
    exact ⟨hw, .refl _ _ _, Option.map_eq_none_iff.2 hid⟩

theorem Settled.newHeap (hw : w.Settled frame) {id size : Nat} (hnew : w.newHeap id size = .ok v) :
    v.Settled frame ∧ Undisturbed {.heap id} frame w v := by
  obtain ⟨⟨h, a⟩, hcreate, hv⟩ := ok_of_bind hnew
  cases hv
  have hhome := Heap.home_of_create hw.owns hcreate
  -- Old and new heap are live at once; the old one goes with the new one in the frame.
  obtain ⟨hdropped, hdrop, hnone⟩ := (hw.ofHeapHome hhome).dropHeap id
  refine ⟨(hdropped.lend_of_none hnone).putHeap, ?_⟩
  have hfirst : Undisturbed {.heap id} frame w { w with arena := a } :=
    (undisturbed_of_spares hhome.spares).mono (Set.empty_subset _) fun _ hr => hr
  have hsecond : Undisturbed {.heap id} frame { w with arena := a } _ :=
    hdrop.mono subset_rfl fun _ hr => List.mem_cons_of_mem _ hr
  exact (hfirst.trans hsecond).trans (undisturbed_putHeap id h (.refl _ _))

/-- A heap that acts is put back as it is then, whether it was refused or not. -/
theorem onHeap_eq_some {α : Type} {id : Nat} {x : HeapM α} {result : Except MemoryError α}
    (hon : w.onHeap id x = some (result, v)) :
    ∃ h, w.heapTable[id]? = some h ∧ v = { w with
      arena := (reached (x (h, w.arena))).2
      heapTable := w.heapTable.insert id (reached (x (h, w.arena))).1 } := by
  obtain ⟨h, hid, hon⟩ := Option.bind_eq_some_iff.1 hon
  refine ⟨h, hid, ?_⟩
  cases hres : x (h, w.arena) <;> rw [hres] at hon <;> cases hon <;> rfl

theorem Settled.onHeap {α : Type} (hw : w.Settled frame) {id : Nat} {x : HeapM α}
    (hx : ∀ others start, Preserves (Heap.Home others start) x)
    {result : Except MemoryError α} (hon : w.onHeap id x = some (result, v)) :
    v.Settled frame ∧ Undisturbed {.heap id} frame w v := by
  obtain ⟨h, hid, rfl⟩ := onHeap_eq_some hon
  have hlent := hw.lendHeap hid
  have hhome : Heap.Home ((w.lend (.heap id)).regions ++ frame) w.arena
      (reached (x (h, w.arena))) :=
    (hx _ _).reached hlent.heapHome
  generalize reached (x (h, w.arena)) = after at hhome ⊢
  obtain ⟨h', a⟩ := after
  constructor
  · exact (hlent.ofHeapHome hhome).putHeap (w := { w with arena := a })
  · exact undisturbed_putHeap id h' hhome.spares

/-! ### Stacks -/

theorem Settled.lendStack (hw : w.Settled frame) {id : Nat} {t : Stack}
    (hid : w.stackTable[id]? = some t) : (w.lend (.stack id)).Settled (t.regions ++ frame) :=
  hw.lend (Holdings.regions_of_stack hid)

theorem Settled.putStack {id : Nat} {t : Stack} (ht : t.Bounded)
    (hw : (w.lend (.stack id)).Settled (t.regions ++ frame)) :
    Settled frame { w with stackTable := w.stackTable.insert id t } where
  owns := by
    refine hw.owns.perm ((List.perm_append_comm_assoc _ _ _).trans ?_)
    rw [← List.append_assoc]
    exact ((Holdings.regions_insert_stack w.toHoldings id t).append_right frame).symm
  bounded j u hu := by
    simp only [Std.TreeMap.getElem?_insert, Nat.compare_eq_eq] at hu
    by_cases hj : id = j
    · rw [if_pos hj] at hu
      exact Option.some.inj hu ▸ ht
    · rw [if_neg hj] at hu
      apply hw.bounded j u
      show (w.stackTable.erase id)[j]? = some u
      rwa [Std.TreeMap.getElem?_erase, if_neg (by simpa using hj)]
  loaded := hw.loaded
  shared := hw.shared

theorem find?_putStack (e : Holdings) (id : Nat) (t : Stack) {m : Name} (hm : m ≠ .stack id) :
    ({ e with stackTable := e.stackTable.insert id t } : Holdings).find? m = e.find? m := by
  cases m with
  | stack j =>
    have hj : id ≠ j := fun heq => hm (heq ▸ rfl)
    simp [Holdings.find?, Std.TreeMap.getElem?_insert, hj]
  | heap j => rfl
  | image j => rfl

theorem undisturbed_putStack {a : Arena} (id : Nat) (t : Stack)
    (hspares : Arena.Spares ((w.without (.stack id)).regions ++ frame) w.arena a) :
    Undisturbed {.stack id} frame w
      { w with arena := a, stackTable := w.stackTable.insert id t } :=
  undisturbed_of_find hspares (fun _ hm => find?_putStack w.toHoldings id t hm) (Nat.le_refl _)
    fun _ hb => .inr hb

/-- A stack that is lent is at home beside all else. -/
theorem Settled.stackHome {t : Stack} (hw : w.Settled (t.regions ++ frame)) (ht : t.Bounded) :
    Stack.Home (w.regions ++ frame) w.arena (t, w.arena) :=
  ⟨hw.owns.perm (List.perm_append_comm_assoc _ _ _), .refl _ _, ht.top_le, ht.depth_le⟩

theorem Settled.ofStackHome {t : Stack} {a start : Arena} (hw : w.Settled others)
    (ht : Stack.Home (w.regions ++ frame) start (t, a)) :
    Settled (t.regions ++ frame) { w with arena := a } :=
  hw.withArena (ht.owns.perm (List.perm_append_comm_assoc _ _ _))

theorem Settled.dropStack (hw : w.Settled frame) (id : Nat) :
    (w.dropStack id).Settled frame ∧ Undisturbed {.stack id} frame w (w.dropStack id) ∧
      (w.dropStack id).find? (.stack id) = none := by
  rw [Workspace.dropStack]
  split
  · rename_i t hid
    have hlent := hw.lendStack hid
    obtain ⟨howns, hspares⟩ := (hlent.stackHome (hw.bounded id t hid)).release
    refine ⟨hlent.withArena howns, undisturbed_without hspares, ?_⟩
    simp [Holdings.find?]
  · rename_i hid
    exact ⟨hw, .refl _ _ _, Option.map_eq_none_iff.2 hid⟩

theorem Settled.newStack (hw : w.Settled frame) {id size : Nat}
    (hnew : w.newStack id size = .ok v) :
    v.Settled frame ∧ Undisturbed {.stack id} frame w v := by
  obtain ⟨⟨t, a⟩, hcreate, hv⟩ := ok_of_bind hnew
  cases hv
  have hhome := Stack.home_of_create hw.owns hcreate
  obtain ⟨hdropped, hdrop, hnone⟩ := (hw.ofStackHome hhome).dropStack id
  refine ⟨(hdropped.lend_of_none hnone).putStack ⟨hhome.top_le, hhome.depth_le⟩, ?_⟩
  have hfirst : Undisturbed {.stack id} frame w { w with arena := a } :=
    (undisturbed_of_spares hhome.spares).mono (Set.empty_subset _) fun _ hr => hr
  have hsecond : Undisturbed {.stack id} frame { w with arena := a } _ :=
    hdrop.mono subset_rfl fun _ hr => List.mem_append_right _ hr
  exact (hfirst.trans hsecond).trans (undisturbed_putStack id t (.refl _ _))

theorem onStack_eq_some {α : Type} {id : Nat} {x : StackM α} {result : Except Fault α}
    (hon : w.onStack id x = some (result, v)) :
    ∃ t, w.stackTable[id]? = some t ∧ v = { w with
      arena := (reached (x (t, w.arena))).2
      stackTable := w.stackTable.insert id (reached (x (t, w.arena))).1 } := by
  obtain ⟨t, hid, hon⟩ := Option.bind_eq_some_iff.1 hon
  refine ⟨t, hid, ?_⟩
  cases hres : x (t, w.arena) <;> rw [hres] at hon <;> cases hon <;> rfl

theorem Settled.onStack {α : Type} (hw : w.Settled frame) {id : Nat} {x : StackM α}
    (hx : ∀ others start, Preserves (Stack.Home others start) x) {result : Except Fault α}
    (hon : w.onStack id x = some (result, v)) :
    v.Settled frame ∧ Undisturbed {.stack id} frame w v := by
  obtain ⟨t, hid, rfl⟩ := onStack_eq_some hon
  have hlent := hw.lendStack hid
  have hhome : Stack.Home ((w.lend (.stack id)).regions ++ frame) w.arena
      (reached (x (t, w.arena))) :=
    (hx _ _).reached (hlent.stackHome (hw.bounded id t hid))
  generalize reached (x (t, w.arena)) = after at hhome ⊢
  obtain ⟨t', a⟩ := after
  constructor
  · exact (hlent.ofStackHome hhome).putStack (w := { w with arena := a })
      ⟨hhome.top_le, hhome.depth_le⟩
  · exact undisturbed_putStack id t' hhome.spares

/-! ### Images -/

theorem find?_putImage (e : Holdings) (id loadings : Nat) (i : LoadedImage) {m : Name}
    (hm : m ≠ .image id) :
    ({ e with imageTable := e.imageTable.insert id i, loadings } : Holdings).find? m
      = e.find? m := by
  cases m with
  | image j =>
    have hj : id ≠ j := fun heq => hm (heq ▸ rfl)
    simp [Holdings.find?, Std.TreeMap.getElem?_insert, hj]
  | heap j => rfl
  | stack j => rfl

/-- Putting an image at a name adds its block to those of the others. -/
theorem mem_blocks_putImage {e : Holdings} {id loadings : Nat} {i : LoadedImage}
    {b : Nat × Nat × Nat}
    (hb : b ∈ ({ e with imageTable := e.imageTable.insert id i, loadings } : Holdings).blocks) :
    b = i.block ∨ b ∈ (e.without (.image id)).blocks := by
  obtain ⟨j, k, hk, rfl⟩ := Holdings.mem_blocks.1 hb
  simp only [Std.TreeMap.getElem?_insert, Nat.compare_eq_eq] at hk
  by_cases hj : id = j
  · rw [if_pos hj] at hk
    exact .inl (congrArg LoadedImage.block (Option.some.inj hk).symm)
  · rw [if_neg hj] at hk
    refine .inr (Holdings.mem_blocks.2 ⟨j, k, ?_, rfl⟩)
    simpa [Holdings.without, Std.TreeMap.getElem?_erase, hj] using hk

/-- An image that shares a block of the others needs no region of its own. -/
theorem Settled.putShared {id : Nat} {i : LoadedImage} (hw : (w.lend (.image id)).Settled frame)
    (hshared : i.block ∈ (w.without (.image id)).blocks) :
    Settled frame { w with imageTable := w.imageTable.insert id i } where
  owns := hw.owns.perm ((Holdings.regions_insert_shared id hshared).append_right frame).symm
  bounded := hw.bounded
  loaded b hb := by
    rcases mem_blocks_putImage hb with rfl | hb
    · exact hw.loaded _ hshared
    · exact hw.loaded b hb
  shared b hb c hc := by
    have hold {b : Nat × Nat × Nat} (hb : b = i.block ∨ b ∈ (w.without (.image id)).blocks) :
        b ∈ (w.without (.image id)).blocks := by
      rcases hb with rfl | hb
      · exact hshared
      · exact hb
    exact hw.shared b (hold (mem_blocks_putImage hb)) c (hold (mem_blocks_putImage hc))

/-- A fresh image comes with a loading that no other has. -/
theorem Settled.putFresh {id : Nat} {i : LoadedImage} (hi : i.loading = w.loadings)
    (hw : (w.lend (.image id)).Settled (i.image.region :: frame)) :
    Settled frame { w with
      imageTable := w.imageTable.insert id i
      loadings := w.loadings + 1 } where
  owns := by
    have hunshared : i.block ∉ (w.without (.image id)).blocks := by
      intro hmem
      have hlt := hw.loaded _ hmem
      simp only [LoadedImage.block, hi] at hlt
      exact Nat.lt_irrefl _ hlt
    refine hw.owns.perm (List.perm_middle.trans ?_)
    exact ((Holdings.regions_insert_unshared id hunshared).append_right frame).symm
  bounded := hw.bounded
  loaded b hb := by
    rcases mem_blocks_putImage hb with rfl | hb
    · exact hi ▸ Nat.lt_succ_self _
    · exact Nat.lt_succ_of_lt (hw.loaded b hb)
  shared b hb c hc heq := by
    rcases mem_blocks_putImage hb with rfl | hb <;> rcases mem_blocks_putImage hc with rfl | hc
    · rfl
    · exact absurd (hw.loaded c hc) (by rw [← heq]; exact hi ▸ Nat.lt_irrefl _)
    · exact absurd (hw.loaded b hb) (by rw [heq]; exact hi ▸ Nat.lt_irrefl _)
    · exact hw.shared b hb c hc heq

/-- The test for sharing looks at loadings; in a settled workspace these tell the blocks apart. -/
theorem Settled.mem_blocks_of_loading (hw : w.Settled frame) {id : Nat} {i : LoadedImage}
    (hid : w.imageTable[id]? = some i)
    (hshared : (w.imageTable.erase id).toList.any fun (_, other) => other.loading == i.loading) :
    i.block ∈ (w.without (.image id)).blocks := by
  obtain ⟨⟨j, k⟩, hk, hloading⟩ := List.any_eq_true.1 hshared
  rw [Std.TreeMap.mem_toList_iff_getElem?_eq_some] at hk
  have hmem : k.block ∈ (w.without (.image id)).blocks := Holdings.mem_blocks.2 ⟨j, k, hk, rfl⟩
  have hi : i.block ∈ w.blocks := Holdings.mem_blocks.2 ⟨id, i, hid, rfl⟩
  rwa [hw.shared i.block hi k.block (blocks_without_subset _ _ _ hmem) (beq_iff_eq.1 hloading).symm]

theorem Settled.lendImage (hw : w.Settled frame) {id : Nat} {i : LoadedImage}
    (hid : w.imageTable[id]? = some i) (hunshared : i.block ∉ (w.without (.image id)).blocks) :
    (w.lend (.image id)).Settled (i.image.region :: frame) := by
  have hperm : w.regions.Perm ([i.image.region] ++ (w.without (.image id)).regions) :=
    Holdings.regions_of_unshared hid hunshared
  exact hw.lend hperm

theorem Settled.lendShared (hw : w.Settled frame) {id : Nat} {i : LoadedImage}
    (hid : w.imageTable[id]? = some i) (hshared : i.block ∈ (w.without (.image id)).blocks) :
    (w.lend (.image id)).Settled frame := by
  have hperm : w.regions.Perm ([] ++ (w.without (.image id)).regions) :=
    Holdings.regions_of_shared hid hshared
  exact hw.lend hperm

theorem Settled.dropImage (hw : w.Settled frame) (id : Nat) :
    (w.dropImage id).Settled frame ∧ Undisturbed {.image id} frame w (w.dropImage id) ∧
      (w.dropImage id).find? (.image id) = none := by
  rw [Workspace.dropImage]
  split
  · rename_i i hid
    simp only
    by_cases hany : (w.imageTable.erase id).toList.any fun (_, other) => other.loading == i.loading
    · rw [if_pos hany]
      refine ⟨hw.lendShared hid (hw.mem_blocks_of_loading hid hany), ?_, ?_⟩
      · exact undisturbed_without (.refl _ _)
      · simp [Holdings.find?]
    · rw [if_neg hany]
      -- The last image of its block, so the block goes too.
      have hunshared : i.block ∉ (w.without (.image id)).blocks := by
        intro hmem
        obtain ⟨j, k, hk, heq⟩ := Holdings.mem_blocks.1 hmem
        refine hany (List.any_eq_true.2 ⟨(j, k), ?_, ?_⟩)
        · exact Std.TreeMap.mem_toList_iff_getElem?_eq_some.2 hk
        · exact beq_iff_eq.2 (congrArg Prod.fst heq)
      have hlent := hw.lendImage hid hunshared
      obtain ⟨howns, hstore, hlimit⟩ := (hlent.owns.perm List.perm_middle).discard
      refine ⟨hlent.withArena howns, ?_, ?_⟩
      · exact undisturbed_without (Arena.spares_of_store_eq hlimit hstore _)
      · simp [Holdings.find?]
  · rename_i hid
    exact ⟨hw, .refl _ _ _, Option.map_eq_none_iff.2 hid⟩

/-- A program that is loaded has a block to itself, and nothing else is written. -/
theorem owns_of_load {bytes : List UInt8} {a after : Arena} {regions : List (Nat × Nat)} {i : Image}
    (ha : a.Owns regions) (hload : Image.load bytes a = .ok (i, after)) :
    after.Owns (i.region :: regions) ∧ Arena.Spares regions a after := by
  obtain ⟨fresh, hallocate, hwrite, hlength, -⟩ := Image.load_eq_ok hload
  obtain ⟨howns, hstore, hlimit⟩ := ha.allocate hallocate
  obtain ⟨-, rfl⟩ := Arena.write_eq_ok hwrite
  rw [← hlength] at howns
  refine ⟨howns.withStore _, (Arena.spares_of_store_eq hlimit hstore _).trans ?_⟩
  exact howns.spares_write (Nat.le_refl _) (by rw [hlength])

theorem Settled.loadImage (hw : w.Settled frame) {id : Nat} {bytes : List UInt8}
    (hload : w.loadImage id bytes = .ok v) :
    v.Settled frame ∧ Undisturbed {.image id} frame w v := by
  obtain ⟨⟨i, a⟩, hi, hv⟩ := ok_of_bind hload
  cases hv
  obtain ⟨howns, hspares⟩ := owns_of_load hw.owns hi
  have hloaded : Settled (i.region :: frame) { w with arena := a } :=
    hw.withArena (howns.perm List.perm_middle.symm)
  obtain ⟨hdropped, hdrop, hnone⟩ := hloaded.dropImage id
  refine ⟨(hdropped.lend_of_none hnone).putFresh rfl, ?_⟩
  have hfirst : Undisturbed {.image id} frame w { w with arena := a } :=
    (undisturbed_of_spares hspares).mono (Set.empty_subset _) fun _ hr => hr
  have hsecond : Undisturbed {.image id} frame { w with arena := a } _ :=
    hdrop.mono subset_rfl fun _ hr => List.mem_cons_of_mem _ hr
  apply (hfirst.trans hsecond).trans
  refine undisturbed_of_find (.refl _ _) (fun m hm => find?_putImage _ id _ _ hm)
    (Nat.le_succ _) fun b hb => ?_
  rcases mem_blocks_putImage hb with rfl | hb
  · exact .inl (Nat.le_refl _)
  · exact .inr hb

/-- An image may be entered elsewhere in place, whether its block is shared or not. -/
theorem Settled.reenter (hw : w.Settled frame) {id : Nat} {i j : LoadedImage}
    (hid : w.imageTable[id]? = some i) (hblock : j.block = i.block) :
    Settled frame { w with imageTable := w.imageTable.insert id j } ∧
      Undisturbed {.image id} frame w { w with imageTable := w.imageTable.insert id j } := by
  -- The table lists the same blocks as before, though not the same images.
  have hperm : ((w.imageTable.insert id j).toList.map (·.2.block)).dedup.Perm w.blocks := by
    have hafter := Holdings.perm_blocks (toList_insert_perm_erase w.imageTable id j)
    have hbefore := Holdings.perm_blocks (toList_perm_cons_erase hid)
    rw [hblock] at hafter
    exact hafter.trans hbefore.symm
  refine ⟨⟨?_, hw.bounded, fun b hb => ?_, fun b hb c hc => ?_⟩, ?_⟩
  · exact hw.owns.perm ((((hperm.map _).append_left _).append_left _).append_right _).symm
  · exact hw.loaded b (hperm.mem_iff.1 hb)
  · exact hw.shared b (hperm.mem_iff.1 hb) c (hperm.mem_iff.1 hc)
  · exact ⟨.refl _ _, fun m hm => find?_putImage w.toHoldings id w.loadings j hm,
      fun _ _ _ _ => .refl _ _, Nat.le_refl _, fun b hb => .inr ⟨hperm.mem_iff.1 hb, .refl _ _⟩⟩

theorem Settled.enterImage (hw : w.Settled frame) (id source entry : Nat) :
    (w.enterImage id source entry).Settled frame ∧
      Undisturbed {.image id} frame w (w.enterImage id source entry) := by
  rw [Workspace.enterImage]
  split
  · rename_i i hsource
    simp only
    split
    · rename_i heq
      subst heq
      exact hw.reenter hsource rfl
    · rename_i hne
      obtain ⟨hdropped, hdrop, hnone⟩ := hw.dropImage id
      -- The source is still there when the old image has gone.
      have hkept : (w.dropImage id).find? (.image source) = some (.image i) := by
        have hname : Name.image source ∉ ({.image id} : Set Name) := by
          simpa using Ne.symm hne
        rw [hdrop.find _ hname]
        simp [Holdings.find?, hsource]
      have hshared : i.block ∈ ((w.dropImage id).without (.image id)).blocks := by
        obtain ⟨k, hk, heq⟩ := Option.map_eq_some_iff.1 hkept
        obtain rfl : k = i := by simpa using heq
        refine Holdings.mem_blocks.2 ⟨source, k, ?_, rfl⟩
        simpa [Holdings.without, Std.TreeMap.getElem?_erase, hne] using hk
      refine ⟨(hdropped.lend_of_none hnone).putShared hshared, hdrop.trans ?_⟩
      refine undisturbed_of_find (.refl _ _) (fun m hm => find?_putImage _ id _ _ hm)
        (Nat.le_refl _) fun b hb => ?_
      rcases mem_blocks_putImage hb with rfl | hb
      · exact .inr hshared
      · exact .inr hb
  · exact ⟨hw, .refl _ _ _⟩

end Workspace

end BytecodeKernel
