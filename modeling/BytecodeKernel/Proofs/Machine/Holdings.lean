import BytecodeKernel.Machine.Workspace
import BytecodeKernel.Proofs.Collections
import BytecodeKernel.Proofs.Machine.Stacks
import Mathlib.Data.List.Dedup
/-!
The objects of a session, seen through their names. `find?` gives the object under a name, `regions`
lists the regions of all of them. A block that several images share counts once, so an object can be
taken out of the list only together with the last image of its block.
-/

namespace BytecodeKernel

/-- The name of an object. -/
inductive Name where
  | heap (id : Nat)
  | stack (id : Nat)
  | image (id : Nat)
deriving DecidableEq

inductive Thing where
  | heap (h : Heap)
  | stack (s : Stack)
  | image (i : LoadedImage)

def Image.region (i : Image) : Nat × Nat :=
  (i.base, i.length)

/-- A block of images, with the loading that tells it from others. -/
def LoadedImage.block (i : LoadedImage) : Nat × Nat × Nat :=
  (i.loading, i.image.region)

def Thing.regions : Thing → List (Nat × Nat)
  | heap h => [h.region]
  | stack s => s.regions
  | image i => [i.image.region]

/-- Images of one loading share their block. -/
def Thing.Shares : Thing → Thing → Prop
  | image i, image j => i.loading = j.loading
  | _, _ => False

namespace Holdings

def find? (e : Holdings) : Name → Option Thing
  | .heap id => e.heapTable[id]?.map .heap
  | .stack id => e.stackTable[id]?.map .stack
  | .image id => e.imageTable[id]?.map .image

def without (e : Holdings) : Name → Holdings
  | .heap id => { e with heapTable := e.heapTable.erase id }
  | .stack id => { e with stackTable := e.stackTable.erase id }
  | .image id => { e with imageTable := e.imageTable.erase id }

/-- The blocks of images, each once. -/
def blocks (e : Holdings) : List (Nat × Nat × Nat) :=
  (e.imageTable.toList.map (·.2.block)).dedup

def regions (e : Holdings) : List (Nat × Nat) :=
  e.heapTable.toList.map (·.2.region) ++
    (e.stackTable.toList.flatMap (·.2.regions) ++ e.blocks.map (·.2))

variable {e : Holdings}

theorem find?_without (n m : Name) :
    (e.without n).find? m = if m = n then none else e.find? m := by
  cases n <;> cases m <;> simp [without, find?, Std.TreeMap.getElem?_erase, @eq_comm Nat] <;>
    split <;> rfl

theorem mem_blocks {b : Nat × Nat × Nat} :
    b ∈ e.blocks ↔ ∃ (id : Nat) (i : LoadedImage), e.imageTable[id]? = some i ∧ i.block = b := by
  simp only [blocks, List.mem_dedup, List.mem_map, Prod.exists,
    Std.TreeMap.mem_toList_iff_getElem?_eq_some]

theorem mem_regions {r : Nat × Nat} :
    r ∈ e.regions ↔ ∃ n t, e.find? n = some t ∧ r ∈ t.regions := by
  rw [regions, List.mem_append, List.mem_append]
  constructor
  · rintro (h | h | h)
    · obtain ⟨⟨id, x⟩, hx, rfl⟩ := List.mem_map.1 h
      rw [Std.TreeMap.mem_toList_iff_getElem?_eq_some] at hx
      exact ⟨.heap id, .heap x, by simp [find?, hx], by simp [Thing.regions]⟩
    · obtain ⟨⟨id, x⟩, hx, hr⟩ := List.mem_flatMap.1 h
      rw [Std.TreeMap.mem_toList_iff_getElem?_eq_some] at hx
      exact ⟨.stack id, .stack x, by simp [find?, hx], hr⟩
    · obtain ⟨b, hb, rfl⟩ := List.mem_map.1 h
      obtain ⟨id, i, hi, rfl⟩ := mem_blocks.1 hb
      exact ⟨.image id, .image i, by simp [find?, hi], by simp [Thing.regions, LoadedImage.block]⟩
  · rintro ⟨n, t, ht, hr⟩
    cases n with
    | heap id =>
      obtain ⟨x, hx, rfl⟩ := Option.map_eq_some_iff.1 ht
      rw [← Std.TreeMap.mem_toList_iff_getElem?_eq_some] at hx
      exact .inl (List.mem_map.2 ⟨_, hx, (List.mem_singleton.1 hr).symm⟩)
    | stack id =>
      obtain ⟨x, hx, rfl⟩ := Option.map_eq_some_iff.1 ht
      rw [← Std.TreeMap.mem_toList_iff_getElem?_eq_some] at hx
      exact .inr (.inl (List.mem_flatMap.2 ⟨_, hx, hr⟩))
    | image id =>
      obtain ⟨i, hi, rfl⟩ := Option.map_eq_some_iff.1 ht
      obtain rfl := List.mem_singleton.1 hr
      exact .inr (.inr (List.mem_map.2 ⟨i.block, mem_blocks.2 ⟨id, i, hi, rfl⟩, rfl⟩))

/-! ### Taking one object out -/

theorem regions_of_heap {id : Nat} {h : Heap} (hid : e.heapTable[id]? = some h) :
    e.regions.Perm (h.region :: (e.without (.heap id)).regions) :=
  ((toList_perm_cons_erase hid).map _).append_right _

theorem regions_insert_heap (e : Holdings) (id : Nat) (h : Heap) :
    ({ e with heapTable := e.heapTable.insert id h } : Holdings).regions.Perm
      (h.region :: (e.without (.heap id)).regions) :=
  ((toList_insert_perm_erase _ id h).map _).append_right _

theorem perm_cons_stack {heaps images : List (Nat × Nat)} {all rest : List (Nat × Stack)}
    {id : Nat} {t : Stack} (h : all.Perm ((id, t) :: rest)) :
    (heaps ++ (all.flatMap (·.2.regions) ++ images)).Perm
      (t.regions ++ (heaps ++ (rest.flatMap (·.2.regions) ++ images))) := by
  apply (((h.flatMap_right (·.2.regions)).append_right images).append_left heaps).trans
  rw [List.flatMap_cons, List.append_assoc]
  exact List.perm_append_comm_assoc _ _ _

theorem regions_of_stack {id : Nat} {t : Stack} (hid : e.stackTable[id]? = some t) :
    e.regions.Perm (t.regions ++ (e.without (.stack id)).regions) :=
  perm_cons_stack (toList_perm_cons_erase hid)

theorem regions_insert_stack (e : Holdings) (id : Nat) (t : Stack) :
    ({ e with stackTable := e.stackTable.insert id t } : Holdings).regions.Perm
      (t.regions ++ (e.without (.stack id)).regions) :=
  perm_cons_stack (toList_insert_perm_erase _ id t)

theorem perm_blocks {all rest : List (Nat × LoadedImage)} {id : Nat} {i : LoadedImage}
    (h : all.Perm ((id, i) :: rest)) :
    (all.map (·.2.block)).dedup.Perm (i.block :: rest.map (·.2.block)).dedup :=
  (h.map (·.2.block)).dedup

/-- An image that shares its block adds no region. -/
theorem perm_of_shared {heaps others : List (Nat × Nat)} {all rest : List (Nat × LoadedImage)}
    {id : Nat} {i : LoadedImage} (h : all.Perm ((id, i) :: rest))
    (hshared : i.block ∈ rest.map (·.2.block)) :
    (heaps ++ (others ++ (all.map (·.2.block)).dedup.map (·.2))).Perm
      (heaps ++ (others ++ (rest.map (·.2.block)).dedup.map (·.2))) := by
  have hblocks := perm_blocks h
  rw [List.dedup_cons_of_mem hshared] at hblocks
  exact ((hblocks.map _).append_left _).append_left _

theorem perm_of_unshared {heaps others : List (Nat × Nat)} {all rest : List (Nat × LoadedImage)}
    {id : Nat} {i : LoadedImage} (h : all.Perm ((id, i) :: rest))
    (hunshared : i.block ∉ rest.map (·.2.block)) :
    (heaps ++ (others ++ (all.map (·.2.block)).dedup.map (·.2))).Perm
      (i.image.region :: (heaps ++ (others ++ (rest.map (·.2.block)).dedup.map (·.2)))) := by
  have hblocks := perm_blocks h
  rw [List.dedup_cons_of_notMem hunshared] at hblocks
  apply (((hblocks.map _).append_left _).append_left _).trans
  rw [List.map_cons, ← List.append_assoc, ← List.append_assoc]
  exact List.perm_middle

theorem mem_map_block_iff {e : Holdings} {b : Nat × Nat × Nat} :
    b ∈ e.imageTable.toList.map (·.2.block) ↔ b ∈ e.blocks :=
  List.mem_dedup.symm

theorem regions_of_shared {id : Nat} {i : LoadedImage} (hid : e.imageTable[id]? = some i)
    (hshared : i.block ∈ (e.without (.image id)).blocks) :
    e.regions.Perm (e.without (.image id)).regions :=
  perm_of_shared (toList_perm_cons_erase hid) (mem_map_block_iff.2 hshared)

theorem regions_of_unshared {id : Nat} {i : LoadedImage} (hid : e.imageTable[id]? = some i)
    (hunshared : i.block ∉ (e.without (.image id)).blocks) :
    e.regions.Perm (i.image.region :: (e.without (.image id)).regions) :=
  perm_of_unshared (toList_perm_cons_erase hid) fun h => hunshared (mem_map_block_iff.1 h)

theorem regions_insert_shared (id : Nat) {i : LoadedImage}
    (hshared : i.block ∈ (e.without (.image id)).blocks) :
    ({ e with imageTable := e.imageTable.insert id i } : Holdings).regions.Perm
      (e.without (.image id)).regions :=
  perm_of_shared (toList_insert_perm_erase _ id i) (mem_map_block_iff.2 hshared)

theorem regions_insert_unshared (id : Nat) {i : LoadedImage}
    (hunshared : i.block ∉ (e.without (.image id)).blocks) :
    ({ e with imageTable := e.imageTable.insert id i } : Holdings).regions.Perm
      (i.image.region :: (e.without (.image id)).regions) :=
  perm_of_unshared (toList_insert_perm_erase _ id i) fun h => hunshared (mem_map_block_iff.1 h)

theorem mem_regions_without {n m : Name} {t : Thing} {r : Nat × Nat} (hne : m ≠ n)
    (hm : e.find? m = some t) (hr : r ∈ t.regions) : r ∈ (e.without n).regions := by
  refine mem_regions.2 ⟨m, t, ?_, hr⟩
  rwa [find?_without, if_neg hne]

/-- The regions of one object can be listed first, and those of the others behind them. -/
theorem exists_perm_append {n : Name} {t : Thing} (hn : e.find? n = some t) :
    ∃ rest, e.regions.Perm (t.regions ++ rest) ∧
      ∀ m u, m ≠ n → e.find? m = some u → ¬ t.Shares u → ∀ r ∈ u.regions, r ∈ rest := by
  cases n with
  | heap id =>
    obtain ⟨h, hid, rfl⟩ := Option.map_eq_some_iff.1 hn
    refine ⟨_, regions_of_heap hid, ?_⟩
    intro m u hne hm _ r hr
    exact mem_regions_without hne hm hr
  | stack id =>
    obtain ⟨s, hid, rfl⟩ := Option.map_eq_some_iff.1 hn
    refine ⟨_, regions_of_stack hid, ?_⟩
    intro m u hne hm _ r hr
    exact mem_regions_without hne hm hr
  | image id =>
    obtain ⟨i, hid, rfl⟩ := Option.map_eq_some_iff.1 hn
    -- Other images of the block go with it, so the block is taken out and not the image.
    have hmem : i.block ∈ e.blocks := mem_blocks.2 ⟨id, i, hid, rfl⟩
    refine ⟨e.heapTable.toList.map (·.2.region) ++ (e.stackTable.toList.flatMap (·.2.regions) ++
      (e.blocks.erase i.block).map (·.2)), ?_, ?_⟩
    · apply ((((List.perm_cons_erase hmem).map _).append_left _).append_left _).trans
      rw [List.map_cons]
      exact (List.perm_middle.append_left _).trans List.perm_middle
    · intro m u hne hm hshares r hr
      cases m with
      | heap j =>
        obtain ⟨h, hj, rfl⟩ := Option.map_eq_some_iff.1 hm
        rw [← Std.TreeMap.mem_toList_iff_getElem?_eq_some] at hj
        obtain rfl := List.mem_singleton.1 hr
        exact List.mem_append_left _ (List.mem_map.2 ⟨_, hj, rfl⟩)
      | stack j =>
        obtain ⟨s, hj, rfl⟩ := Option.map_eq_some_iff.1 hm
        rw [← Std.TreeMap.mem_toList_iff_getElem?_eq_some] at hj
        exact List.mem_append_right _ (List.mem_append_left _ (List.mem_flatMap.2 ⟨_, hj, hr⟩))
      | image j =>
        obtain ⟨k, hj, rfl⟩ := Option.map_eq_some_iff.1 hm
        obtain rfl := List.mem_singleton.1 hr
        -- Another loading is another block, also where the two regions are equal.
        have hother : k.block ≠ i.block := fun heq => hshares (congrArg Prod.fst heq).symm
        have hk : k.block ∈ e.blocks.erase i.block :=
          (List.mem_erase_of_ne hother).2 (mem_blocks.2 ⟨j, k, hj, rfl⟩)
        exact List.mem_append_right _ (List.mem_append_right _ (List.mem_map.2 ⟨_, hk, rfl⟩))

/-- Taking out an object that is not there changes no region. -/
theorem regions_without_of_none {n : Name} (h : e.find? n = none) :
    e.regions.Perm (e.without n).regions := by
  cases n with
  | heap id =>
    have hperm := toList_perm_erase (Option.map_eq_none_iff.1 h)
    exact (hperm.map _).append_right _
  | stack id =>
    have hperm := toList_perm_erase (Option.map_eq_none_iff.1 h)
    exact ((hperm.flatMap_right _).append_right _).append_left _
  | image id =>
    have hperm := toList_perm_erase (Option.map_eq_none_iff.1 h)
    exact ((((hperm.map _).dedup).map _).append_left _).append_left _

end Holdings

end BytecodeKernel
