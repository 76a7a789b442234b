import BytecodeKernel.Proofs.Kernel.Audit
import BytecodeKernel.Proofs.Kernel.Identities
import BytecodeKernel.Proofs.Kernel.Subtrees
import BytecodeKernel.Proofs.Memory.Tables
/-!
What is left when a kernel has been shut down. While its workers are retired, one after the other,
processes only leave the registry and the workers. So it does not matter that the halts for one
worker reach into the sets of those that come later, or that a set was emptied before its processes
were halted: each of those that are asked for has left the registry when its turn is over, whoever
took it off, and nobody comes back. No process is registered in the end, so none is alive, and the
accounts of memory come down to what the client holds.
-/

namespace BytecodeKernel

/-- The worker asleep and without processes. -/
def Worker.retired (w : Worker) : Worker :=
  { w with awake := false, owned := [] }

@[simp] theorem Worker.retired_without (w : Worker) (ids : List Nat) :
    (w.without ids).retired = w.retired := rfl

@[simp] theorem Worker.without_retired (w : Worker) (ids : List Nat) :
    w.retired.without ids = w.retired := rfl

/-- From one system to a later one processes have left the registry and the workers, and workers
have been retired. -/
structure System.Dwindles (s t : System) : Prop where
  registered : ∀ j, t.IsRegistered j → s.IsRegistered j
  workers : t.workers.map Worker.retired = s.workers.map Worker.retired
  /-- Who is retired stays so. -/
  retired : ∀ (index : Nat) (w : Worker), s.workers[index]? = some w.retired →
    t.workers[index]? = some w.retired
  elsewhere : s.Elsewhere t

namespace System.Dwindles

variable {s t u : System}

theorem refl (s : System) : s.Dwindles s :=
  ⟨fun _ hj => hj, rfl, fun _ _ hw => hw, ⟨rfl, rfl, rfl, rfl, rfl⟩⟩

theorem trans (hst : s.Dwindles t) (htu : t.Dwindles u) : s.Dwindles u :=
  ⟨fun j hj => hst.registered j (htu.registered j hj), htu.workers.trans hst.workers,
    fun index w hw => htu.retired index w (hst.retired index w hw),
    hst.elsewhere.trans htu.elsewhere⟩

end System.Dwindles

namespace Kernel

variable {held : List (Nat × Nat)} {k : Kernel} {s : System} {id index : Nat}
  {ids indices order : List Nat} {w : Worker}

/-! ### One halt after the other -/

/-- The end of a subtree. -/
theorem Sweeps.dwindles {k' : Kernel} (h : Sweeps [.expand id] (uprooted id k) order k') :
    k.1.Dwindles k'.1 ∧ ¬ k'.1.IsRegistered id := by
  have hbegin (j : Nat) : (uprooted id k).1.IsRegistered j ↔ k.1.IsRegistered j ∧ j ≠ id :=
    System.isRegistered_unregister
  refine ⟨⟨fun j hj => ((hbegin j).1 (h.registered_before hj)).1, ?_, fun index w hw => ?_, ?_⟩,
    fun hid => ((hbegin id).1 (h.registered_before hid)).2 rfl⟩
  · rw [h.workers_uprooted, List.map_map]
    rfl
  · rw [h.workers_uprooted, List.getElem?_map, hw]
    rfl
  · have huprooted : k.1.Elsewhere (uprooted id k).1 := ⟨rfl, rfl, rfl, rfl, rfl⟩
    exact huprooted.trans h.elsewhere

/-- Whether the process was registered or not, it is not any more. -/
theorem dwindles_attempt (id : Nat) (k : Kernel) :
    k.1.Dwindles (attempt (haltSubtree id) k).1 ∧
      ¬ (attempt (haltSubtree id) k).1.IsRegistered id := by
  rw [attempt_eq_reached, haltSubtree_eq]
  split
  · obtain ⟨order, hsweeps⟩ := exists_sweeps [.expand id] (uprooted id k)
    exact hsweeps.dwindles
  · exact ⟨.refl k.1, ‹_›⟩

/-- A halt of one may take others that come later in the list. -/
theorem dwindles_haltEach (ids : List Nat) (k : Kernel) :
    k.1.Dwindles (haltEach ids k).1 ∧ ∀ id ∈ ids, ¬ (haltEach ids k).1.IsRegistered id := by
  induction ids generalizing k with
  | nil => exact ⟨.refl k.1, fun id hid => absurd hid List.not_mem_nil⟩
  | cons id rest ih =>
    obtain ⟨hfirst, hid⟩ := dwindles_attempt id k
    obtain ⟨hrest, hgone⟩ := ih (attempt (haltSubtree id) k)
    refine ⟨hfirst.trans hrest, fun j hj => ?_⟩
    rcases List.mem_cons.1 hj with rfl | hj
    · exact fun hregistered => hid (hrest.registered j hregistered)
    · exact hgone j hj

/-! ### One worker after the other -/

theorem getElem?_modifyWorker (s : System) (index : Nat) (f : Worker → Worker) (i : Nat) :
    (s.modifyWorker index f).workers[i]? =
      s.workers[i]?.map fun w => if index = i then f w else w :=
  List.getElem?_modify f index s.workers i

theorem dwindles_modifyWorker (s : System) (index : Nat) :
    s.Dwindles (s.modifyWorker index Worker.retired) := by
  refine ⟨fun j hj => hj, ?_, fun i w hw => ?_, ⟨rfl, rfl, rfl, rfl, rfl⟩⟩
  · refine List.ext_getElem? fun i => ?_
    rw [List.getElem?_map, getElem?_modifyWorker, List.getElem?_map, Option.map_map]
    congr 1
    funext w
    rw [Function.comp_apply]
    split <;> rfl
  · rw [getElem?_modifyWorker, hw, Option.map_some]
    split <;> rfl

/-- The worker has no processes any more when those that it had are halted. -/
theorem retire_eq (index : Nat) (k : Kernel) :
    retire index k = haltEach ((k.1.workers[index]?.map (·.owned)).getD [])
      (k.1.modifyWorker index Worker.retired, k.2) :=
  rfl

theorem dwindles_retire (index : Nat) (k : Kernel) : k.1.Dwindles (retire index k).1 := by
  rw [retire_eq]
  exact (dwindles_modifyWorker k.1 index).trans
    (dwindles_haltEach _ (k.1.modifyWorker index Worker.retired, k.2)).1

theorem retired_retire (hw : k.1.workers[index]? = some w) :
    (retire index k).1.workers[index]? = some w.retired := by
  rw [retire_eq]
  refine (dwindles_haltEach _ _).1.retired index w ?_
  rw [getElem?_modifyWorker, hw, Option.map_some, if_pos rfl]

/-- The kernel in which these workers have been retired. -/
def retireEach (indices : List Nat) (k : Kernel) : Kernel :=
  indices.foldl (fun k index => retire index k) k

theorem dwindles_retireEach (indices : List Nat) (k : Kernel) :
    k.1.Dwindles (retireEach indices k).1 := by
  induction indices generalizing k with
  | nil => exact .refl k.1
  | cons index rest ih => exact (dwindles_retire index k).trans (ih (retire index k))

theorem retired_retireEach (hindex : index ∈ indices) (hw : k.1.workers[index]? = some w) :
    (retireEach indices k).1.workers[index]? = some w.retired := by
  induction indices generalizing k w with
  | nil => exact absurd hindex List.not_mem_nil
  | cons i rest ih =>
    by_cases hi : index = i
    · subst hi
      exact (dwindles_retireEach rest _).retired index w (retired_retire hw)
    · -- The worker may have lost processes, but retired it is what it would have been.
      have hsame := congrArg (fun workers : List Worker => workers[index]?)
        (dwindles_retire i k).workers
      simp only [List.getElem?_map, hw, Option.map_some] at hsame
      obtain ⟨v, hv, hretired⟩ := Option.map_eq_some_iff.1 hsame
      rw [← hretired]
      exact ih ((List.mem_cons.1 hindex).resolve_left hi) hv

/-! ### All of it -/

/-- The kernel in which all workers have been retired. -/
def deserted (k : Kernel) : Kernel :=
  retireEach (List.range k.1.workers.length) ({ k.1 with keepAlive := false }, k.2)

theorem shutdown_eq (k : Kernel) :
    shutdown k = haltEach (deserted k).1.registry.toList (deserted k) :=
  rfl

theorem dwindles_shutdown (k : Kernel) :
    ({ k.1 with keepAlive := false } : System).Dwindles (shutdown k).1 := by
  rw [shutdown_eq]
  exact (dwindles_retireEach _ ({ k.1 with keepAlive := false }, k.2)).trans
    (dwindles_haltEach _ _).1

/-- The second round goes through those that are left, and whoever it does not name has left. -/
theorem not_isRegistered_shutdown (k : Kernel) (id : Nat) : ¬ (shutdown k).1.IsRegistered id := by
  intro hid
  obtain ⟨hdwindles, hgone⟩ := dwindles_haltEach (deserted k).1.registry.toList (deserted k)
  rw [shutdown_eq] at hid
  exact hgone id (Std.TreeSet.mem_toList.2 (hdwindles.registered id hid)) hid

theorem isEmpty_registry_shutdown (k : Kernel) : (shutdown k).1.registry.isEmpty :=
  Std.TreeSet.isEmpty_iff_forall_not_mem.2 (not_isRegistered_shutdown k)

theorem workers_shutdown (k : Kernel) :
    (shutdown k).1.workers = k.1.workers.map Worker.retired := by
  have hworkers := (dwindles_shutdown k).workers
  refine List.ext_getElem? fun index => ?_
  rw [List.getElem?_map]
  cases hw : k.1.workers[index]? with
  | none =>
    have hnone := congrArg (fun workers : List Worker => workers[index]?) hworkers
    simp only [List.getElem?_map, hw, Option.map_none, Option.map_eq_none_iff] at hnone
    exact hnone
  | some w =>
    have hlast := (dwindles_haltEach (deserted k).1.registry.toList (deserted k)).1
    refine hlast.retired index w (retired_retireEach ?_ hw)
    exact List.mem_range.2 (List.getElem?_eq_some_iff.1 hw).1

/-! ### A second time -/

theorem retire_of_retired (h : k.1.workers[index]? = some w.retired) : retire index k = k := by
  have hworkers : (k.1.modifyWorker index Worker.retired).workers = k.1.workers := by
    refine List.ext_getElem? fun i => ?_
    rw [getElem?_modifyWorker]
    by_cases hi : index = i
    · subst hi
      rw [h, Option.map_some, if_pos rfl]
      rfl
    · simp only [if_neg hi, Option.map_id']
  have hsame : k.1.modifyWorker index Worker.retired = k.1 := by
    show { k.1 with workers := (k.1.modifyWorker index Worker.retired).workers } = k.1
    rw [hworkers]
  have howned : (k.1.workers[index]?.map (·.owned)).getD [] = [] := by
    rw [h]
    rfl
  rw [retire_eq, howned, hsame]
  rfl

theorem retireEach_of_retired (h : ∀ index ∈ indices, ∃ w : Worker,
    k.1.workers[index]? = some w.retired) : retireEach indices k = k := by
  induction indices with
  | nil => rfl
  | cons index rest ih =>
    obtain ⟨⟨w, hw⟩, hrest⟩ := List.forall_mem_cons.1 h
    show retireEach rest (retire index k) = k
    rw [retire_of_retired hw, ih hrest]

/-- There is nothing left to do about a kernel without processes whose workers are retired. -/
theorem shutdown_of_deserted (halive : k.1.keepAlive = false)
    (hworkers : ∀ v ∈ k.1.workers, ∃ w : Worker, v = w.retired)
    (hnone : ∀ id, ¬ k.1.IsRegistered id) : shutdown k = k := by
  have hkept : ({ k.1 with keepAlive := false }, k.2) = k := by
    rw [← halive]
  have hdeserted : deserted k = k := by
    rw [deserted, hkept]
    refine retireEach_of_retired fun index hindex => ?_
    obtain ⟨w, hw⟩ := hworkers _ (List.getElem_mem (List.mem_range.1 hindex))
    exact ⟨w, (List.getElem?_eq_getElem (List.mem_range.1 hindex)).trans (congrArg some hw)⟩
  have hregistry : k.1.registry.toList = [] :=
    List.eq_nil_iff_forall_not_mem.2 fun id hid => hnone id (Std.TreeSet.mem_toList.1 hid)
  rw [shutdown_eq, hdeserted, hregistry]
  rfl

theorem shutdown_shutdown (k : Kernel) : shutdown (shutdown k) = shutdown k := by
  refine shutdown_of_deserted (dwindles_shutdown k).elsewhere.keepAlive (fun v hv => ?_)
    (not_isRegistered_shutdown k)
  rw [workers_shutdown] at hv
  obtain ⟨w, -, rfl⟩ := List.mem_map.1 hv
  exact ⟨w, rfl⟩

/-! ### Memory -/

/-- When no process is registered, the blocks of the client are all there is. -/
theorem Reachable.liveBlocks_perm_held (hk : Reachable held k)
    (hnone : ∀ id, ¬ k.1.IsRegistered id) : k.2.blocks.liveBlocks.Perm held := by
  have hregistered : k.1.registered = [] :=
    List.eq_nil_iff_forall_not_mem.2 fun e he => hnone e.1 (System.mem_registered.1 he).1
  have hregions := System.regions_perm_registered hk.orderly
  rw [hregistered] at hregions
  have hempty : k.1.regions none = [] := hregions.eq_nil
  have hlive := hk.housed.owns.live
  rwa [hempty, List.nil_append] at hlive

theorem Housed.freeBytes_add_liveBytes (h : Housed none held k) :
    k.2.blocks.freeBytes + Tables.liveBytes k.2.blocks.liveBlocks = k.2.capacity := by
  rw [Tables.liveBytes_liveBlocks, Blocks.freeBytes_add_liveBytes, h.owns.sound.extent]

/-- What a shutdown leaves. -/
structure ShutDown (held : List (Nat × Nat)) (k k' : Kernel) : Prop where
  keepAlive : k'.1.keepAlive = false
  registry : k'.1.registry.isEmpty
  /-- All workers are there, asleep and without processes. -/
  workers : k'.1.workers = k.1.workers.map fun w => { w with awake := false, owned := [] }
  /-- Whatever happened before, every process that there was or that was made then has been halted,
  and has nothing any more. -/
  halted : ∀ start ops, k = performAll start ops → ∀ id,
    start.1.process? id ≠ none ∨ id ∈ identities (creationsOf ops start) →
      ∃ p, k'.1.process? id = some p ∧ p.halted = true ∧ p.Bare
  live : k'.2.blocks.liveBlocks.Perm held
  free : k'.2.blocks.freeBytes + Tables.liveBytes held = k'.2.capacity

/-- A shutdown takes every process off the registry and halts it, puts all workers to sleep without
processes, and gives back all memory but that of the client: if that has none, no block is live and
all of the arena is free. A second shutdown changes nothing. -/
theorem shutdown_of_reachable (hk : Reachable held k) :
    ShutDown held k (shutdown k) ∧
      (held = [] → (shutdown k).2.blocks.liveBlocks = [] ∧
        (shutdown k).2.blocks.freeBytes = (shutdown k).2.capacity) ∧
      shutdown (shutdown k) = shutdown k := by
  have hend : Reachable held (shutdown k) := hk.perform .shutdown not_false
  have hlive := hend.liveBlocks_perm_held (not_isRegistered_shutdown k)
  have hfree := hend.housed.freeBytes_add_liveBytes
  have hsum : Tables.liveBytes (shutdown k).2.blocks.liveBlocks = Tables.liveBytes held :=
    (hlive.map _).sum_nat
  rw [hsum] at hfree
  refine ⟨⟨(dwindles_shutdown k).elsewhere.keepAlive, isEmpty_registry_shutdown k,
    workers_shutdown k, ?_, hlive, hfree⟩, ?_, shutdown_shutdown k⟩
  · rintro start ops rfl id hid
    obtain ⟨p, hp⟩ := Option.ne_none_iff_exists'.1
      (((gives_performAll ops start).recorded id).2 hid)
    have hfollows := (Tracks.perform ⟨hk.orderly, .refl _⟩ .shutdown).follows
    obtain ⟨q, hq, -⟩ := hfollows.kept id p hp
    have hhalted := not_isRegistered_shutdown (performAll start ops) id
    rw [hend.orderly.registered_iff_of_record hq, Bool.not_eq_false] at hhalted
    exact ⟨q, hq, hhalted, hend.orderly.recorded.bare id q hq hhalted⟩
  · rintro rfl
    exact ⟨hlive.eq_nil, hfree⟩

/-! ### A tree over two workers -/

/-- Process 4, whose parent was halted before, has a program, and is with worker 1 like process 1.
The parent and the child of that one are with worker 0, which sleeps. Process 6 is with nobody. -/
def scatteredKernel : Kernel :=
  performAll gappedKernel [.bindProgram 4 [22, 0, 0, 0, 0], .sleepWorker 0, .dispatch 4,
    .dispatch 1, .generate none]

theorem reachable_scatteredKernel : Reachable [] scatteredKernel := by
  apply reachable_gappedKernel.performAll
  simp [Op.IsBindImage]

/-- Thirteen blocks were live. -/
theorem shutdown_scatteredKernel :
    Reachable [] scatteredKernel ∧
      scatteredKernel.1.workers.map (fun w => (w.awake, w.owned)) =
        [(false, [3, 5, 0]), (true, [4, 1])] ∧
      scatteredKernel.1.registry.toList = [0, 1, 3, 4, 5, 6] ∧
      scatteredKernel.2.blocks.liveBlocks.length = 13 ∧
      ShutDown [] scatteredKernel (shutdown scatteredKernel) ∧
      (shutdown scatteredKernel).2.blocks.liveBlocks = [] ∧
      (shutdown scatteredKernel).2.blocks.freeBytes = (shutdown scatteredKernel).2.capacity ∧
      shutdown (shutdown scatteredKernel) = shutdown scatteredKernel := by
  obtain ⟨hshut, hempty, htwice⟩ := shutdown_of_reachable reachable_scatteredKernel
  obtain ⟨hlive, hfree⟩ := hempty rfl
  exact ⟨reachable_scatteredKernel, by decide +kernel, by decide +kernel, by decide +kernel, hshut,
    hlive, hfree, htwice⟩

end Kernel

end BytecodeKernel
