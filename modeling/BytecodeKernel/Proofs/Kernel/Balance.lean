import BytecodeKernel.Proofs.Kernel.Subtrees
/-!
How dispatches spread the load. A process goes to an awake worker that has least to run, and every
other process stays where it is. So as long as processes are handed out that no awake worker has
yet, each dispatch raises one of the smallest loads by one, and no two awake workers come to be more
than one apart.
-/

namespace BytecodeKernel

namespace System

/-- The worker at the index is awake, no awake worker has less to run, and none before it as little.
-/
structure LeastLoaded (s : System) (index : Nat) (w : Worker) : Prop where
  found : s.workers[index]? = some w
  awake : w.awake = true
  least : ∀ (i : Nat) (v : Worker), s.workers[i]? = some v → v.awake = true →
    s.load w ≤ s.load v ∧ (s.load v = s.load w → index ≤ i)

/-- No two awake workers are more than one process apart. -/
def Balanced (s : System) : Prop :=
  ∀ v ∈ s.workers, ∀ w ∈ s.workers, v.awake = true → w.awake = true → s.load v ≤ s.load w + 1

variable {s : System} {index id : Nat} {w : Worker}

/-! ### The choice of a worker -/

/-- The awake workers, each with its index. -/
def awakeWorkers (s : System) : List (Worker × Nat) :=
  s.workers.zipIdx.filter fun (w, _) => w.awake

theorem mem_awakeWorkers {e : Worker × Nat} :
    e ∈ s.awakeWorkers ↔ s.workers[e.2]? = some e.1 ∧ e.1.awake = true := by
  rw [awakeWorkers, List.mem_filter, List.mem_zipIdx_iff_getElem?]

theorem pairwise_awakeWorkers (s : System) : s.awakeWorkers.Pairwise fun e f => e.2 < f.2 := by
  have hindices : (s.workers.zipIdx.map Prod.snd).Pairwise (· < ·) := by
    rw [List.zipIdx_map_snd]
    exact List.pairwise_lt_range'
  exact (List.pairwise_map.1 hindices).sublist List.filter_sublist

theorem leastLoaded_of_eq_some (h : s.leastLoaded? = some index) :
    ∃ w, s.LeastLoaded index w := by
  obtain ⟨⟨w, i⟩, hmin, rfl⟩ := Option.map_eq_some_iff.1 h
  obtain ⟨before, after, hsplit, hbefore, hafter⟩ := split_of_minOn?_eq_some hmin
  replace hsplit : s.awakeWorkers = before ++ (w, i) :: after := hsplit
  obtain ⟨hfound, hawake⟩ := mem_awakeWorkers.1
    (show (w, i) ∈ s.awakeWorkers by rw [hsplit]; exact List.mem_append_right _ List.mem_cons_self)
  refine ⟨w, hfound, hawake, fun j v hv hvawake => ?_⟩
  have hmem : (v, j) ∈ s.awakeWorkers := mem_awakeWorkers.2 ⟨hv, hvawake⟩
  have hindices := pairwise_awakeWorkers s
  rw [hsplit] at hmem hindices
  rcases List.mem_append.1 hmem with hmem | hmem
  · have hlt := hbefore _ hmem
    exact ⟨hlt.le, fun heq => absurd heq hlt.ne'⟩
  · rcases List.mem_cons.1 hmem with heq | hmem
    · cases heq
      exact ⟨Nat.le_refl _, fun _ => Nat.le_refl _⟩
    · have hlater := (List.pairwise_cons.1 (List.pairwise_append.1 hindices).2.1).1 _ hmem
      exact ⟨hafter _ hmem, fun _ => hlater.le⟩

theorem leastLoaded?_eq_none_iff :
    s.leastLoaded? = none ↔ ∀ w ∈ s.workers, w.awake = false := by
  have hnone : s.leastLoaded? = none ↔ s.awakeWorkers = [] := by
    show (s.awakeWorkers.minOn? _).map Prod.snd = none ↔ _
    rw [Option.map_eq_none_iff, ← not_iff_not, ← ne_eq, ← ne_eq, Option.ne_none_iff_isSome,
      List.isSome_minOn?_iff]
  rw [hnone, List.eq_nil_iff_forall_not_mem]
  constructor
  · intro h w hw
    obtain ⟨i, hi⟩ := List.getElem?_of_mem hw
    exact Bool.eq_false_iff.2 fun hawake => h (w, i) (mem_awakeWorkers.2 ⟨hi, hawake⟩)
  · rintro h ⟨w, i⟩ hmem
    obtain ⟨hi, hawake⟩ := mem_awakeWorkers.1 hmem
    exact absurd hawake (by simp [h w (List.mem_of_getElem? hi)])

/-! ### Loads -/

theorem load_congr {s t : System} (h : t.processes = s.processes) (w : Worker) :
    t.load w = s.load w := by
  rw [load, load]
  exact List.countP_congr fun j _ => by rw [isIdle, isIdle, process?_congr h]

/-- A process that the worker does not own and that has something to run adds one to its load. -/
theorem load_assign (hid : id ∉ w.owned) (hidle : ¬ s.isIdle id) :
    s.load (w.assign id) = s.load w + 1 := by
  rw [load, Worker.assign, if_neg hid, List.countP_append, List.countP_singleton,
    if_pos (by simpa using hidle), load]

end System

namespace Kernel

variable {held : List (Nat × Nat)} {k k' : Kernel} {s : System} {id index : Nat} {w : Worker}

theorem awake_assign (w : Worker) (id : Nat) : (w.assign id).awake = w.awake := by
  rw [Worker.assign]
  split <;> rfl

theorem without_assign (w : Worker) (id : Nat) : (w.assign id).without [id] = w.without [id] := by
  rw [Worker.assign]
  split
  · rfl
  · simp [Worker.without]

/-- Whoever is assigned, the others stay with their workers, in their order. -/
theorem without_assignTo (index id : Nat) (workers : List Worker) :
    (assignTo index id workers).map (·.without [id]) = workers.map (·.without [id]) := by
  refine List.ext_getElem (by simp) fun i hi hi' => ?_
  simp only [assignTo, List.getElem_map, List.getElem_mapIdx]
  split
  · exact without_assign _ id
  · rw [Worker.remove_eq_without, Worker.without_without]
    exact Worker.without_congr fun j _ => by simp

/-! ### One dispatch -/

theorem dispatch_of_leastLoaded (hid : k.1.IsRegistered id)
    (hindex : k.1.leastLoaded? = some index) : dispatch id k =
      .ok index ({ k.1 with workers := assignTo index id k.1.workers }, k.2) := by
  rw [dispatch, requireRegistered_bind, if_pos hid]
  simp only [bind, EStateM.bind, TenantM.self, hindex]
  rfl

theorem dispatch_of_all_asleep (hid : k.1.IsRegistered id)
    (hasleep : ∀ w ∈ k.1.workers, w.awake = false) :
    dispatch id k = .error .noWorkerAvailable k := by
  rw [dispatch, requireRegistered_bind, if_pos hid]
  simp only [bind, EStateM.bind, TenantM.self, System.leastLoaded?_eq_none_iff.2 hasleep]
  rfl

theorem exists_leastLoaded (hawake : ∃ w ∈ k.1.workers, w.awake = true) :
    ∃ index w, k.1.leastLoaded? = some index ∧ k.1.LeastLoaded index w := by
  cases hindex : k.1.leastLoaded? with
  | none =>
    obtain ⟨w, hw, hawake⟩ := hawake
    simp [System.leastLoaded?_eq_none_iff.1 hindex w hw] at hawake
  | some index =>
    obtain ⟨w, hw⟩ := System.leastLoaded_of_eq_some hindex
    exact ⟨index, w, rfl, hw⟩

/-- What a dispatch does: this worker has the process now, and it alone. -/
structure Handed (id index : Nat) (k k' : Kernel) : Prop where
  chosen : ∃ w, k.1.LeastLoaded index w
  owner : ∀ (i : Nat) (w : Worker), k'.1.workers[i]? = some w → (id ∈ w.owned ↔ i = index)
  once : k'.1.owned.count id = 1
  others : k'.1.workers.map (·.without [id]) = k.1.workers.map (·.without [id])
  elsewhere : k' = ({ k.1 with workers := k'.1.workers }, k.2)

theorem Reachable.handed (hk : Reachable held k) (hid : k.1.IsRegistered id)
    (hawake : ∃ w ∈ k.1.workers, w.awake = true) :
    ∃ index k', dispatch id k = .ok index k' ∧ Handed id index k k' := by
  obtain ⟨index, w, hindex, hw⟩ := exists_leastLoaded hawake
  have hdispatch := dispatch_of_leastLoaded hid hindex
  refine ⟨index, _, hdispatch, ⟨w, hw⟩, fun i v hv => mem_owned_assignTo hv, ?_,
    without_assignTo index id k.1.workers, rfl⟩
  have horderly := (hk.perform (.dispatch id) not_false).orderly
  rw [Kernel.perform, hdispatch] at horderly
  refine List.count_eq_one_of_mem horderly.staffed.nodup (List.mem_flatMap.2 ⟨w.assign id, ?_, ?_⟩)
  · refine List.mem_of_getElem? (i := index) ?_
    show (assignTo index id k.1.workers)[index]? = _
    rw [assignTo, List.getElem?_mapIdx, hw.found, Option.map_some, if_pos rfl]
  · exact (w.mem_owned_assign id id).2 (.inr rfl)

/-! ### One after the other -/

/-- To hand out a process that no awake worker has keeps the balance. -/
theorem balanced_assignTo (hbalanced : s.Balanced) (hindex : s.LeastLoaded index w)
    (hidle : ¬ s.isIdle id) (hfree : ∀ v ∈ s.workers, v.awake = true → id ∉ v.owned) :
    ({ s with workers := assignTo index id s.workers } : System).Balanced := by
  have hload : ∀ v ∈ assignTo index id s.workers, v.awake = true →
      ∃ u ∈ s.workers, u.awake = true ∧
        (s.load v = s.load u ∧ s.load w ≤ s.load u ∨ s.load v = s.load w + 1) := by
    intro v hv hawake
    obtain ⟨i, hi, rfl⟩ := List.mem_mapIdx.1 hv
    have hmem := List.getElem_mem hi
    by_cases heq : i = index
    · subst heq
      rw [if_pos rfl, awake_assign] at hawake
      have hw : s.workers[i] = w :=
        Option.some.inj ((List.getElem?_eq_getElem hi).symm.trans hindex.found)
      rw [if_pos rfl, System.load_assign (hfree _ hmem hawake) hidle, hw]
      exact ⟨w, hw ▸ hmem, hindex.awake, .inr rfl⟩
    · rw [if_neg heq] at hawake ⊢
      rw [Worker.remove_of_not_mem (hfree _ hmem hawake)]
      exact ⟨_, hmem, hawake, .inl ⟨rfl, (hindex.least i _ (List.getElem?_eq_getElem hi) hawake).1⟩⟩
  have hmem : w ∈ s.workers := List.mem_of_getElem? hindex.found
  intro v hv u hu hvawake huawake
  rw [System.load_congr (t := { s with workers := assignTo index id s.workers }) (s := s) rfl,
    System.load_congr (t := { s with workers := assignTo index id s.workers }) (s := s) rfl]
  obtain ⟨v', hv', hv'awake, hvload⟩ := hload v hv hvawake
  obtain ⟨u', hu', hu'awake, huload⟩ := hload u hu huawake
  have hnear := hbalanced v' hv' w hmem hv'awake hindex.awake
  have hapart := hbalanced v' hv' u' hu' hv'awake hu'awake
  omega

/-- Handed out one after the other, processes that no awake worker has come to be spread evenly. -/
theorem balanced_dispatches {ids : List Nat} (hbalanced : k.1.Balanced) (hids : ids.Nodup)
    (hready : ∀ id ∈ ids, k.1.IsRegistered id ∧ ¬ k.1.isIdle id)
    (hfree : ∀ id ∈ ids, ∀ w ∈ k.1.workers, w.awake = true → id ∉ w.owned) :
    (performAll k (ids.map .dispatch)).1.Balanced := by
  induction ids generalizing k with
  | nil => exact hbalanced
  | cons id rest ih =>
    obtain ⟨hid, hrest⟩ := List.nodup_cons.1 hids
    obtain ⟨hregistered, hidle⟩ := hready id List.mem_cons_self
    show (performAll (reached (dispatch id k)) (rest.map .dispatch)).1.Balanced
    by_cases hawake : ∃ w ∈ k.1.workers, w.awake = true
    · obtain ⟨index, w, hindex, hw⟩ := exists_leastLoaded hawake
      rw [dispatch_of_leastLoaded hregistered hindex]
      refine ih (balanced_assignTo hbalanced hw hidle fun v hv => hfree id List.mem_cons_self v hv)
        hrest (fun j hj => hready j (List.mem_cons_of_mem id hj)) fun j hj v hv hvawake howned => ?_
      -- Who comes later is still with no awake worker, for it is not the one handed out.
      obtain ⟨i, hi, rfl⟩ := List.mem_mapIdx.1 hv
      have hne : j ≠ id := fun heq => hid (heq ▸ hj)
      have hold := (System.mem_owned_moved.1 howned).resolve_right fun h => hne h.2
      refine hfree j (List.mem_cons_of_mem id hj) _ (List.getElem_mem hi) ?_ hold.1
      split at hvawake
      · rwa [awake_assign] at hvawake
      · exact hvawake
    · have hasleep : ∀ w ∈ k.1.workers, w.awake = false := fun w hw =>
        Bool.eq_false_iff.2 fun h => hawake ⟨w, hw, h⟩
      rw [dispatch_of_all_asleep hregistered hasleep]
      exact ih hbalanced hrest (fun j hj => hready j (List.mem_cons_of_mem id hj))
        fun j hj => hfree j (List.mem_cons_of_mem id hj)

/-- A dispatch of a registered process gives it to an awake worker with least to run, the first of
them, and takes it from all others; it is refused if the process is not registered or no worker is
awake, and then nothing changes. Processes with something to run that are handed out to empty
workers, each once, are spread evenly after each dispatch. -/
theorem dispatch_of_reachable (hk : Reachable held k) (id : Nat) :
    (¬ k.1.IsRegistered id → dispatch id k = .error (.unknownProcess id) k) ∧
      (k.1.IsRegistered id → (∀ w ∈ k.1.workers, w.awake = false) →
        dispatch id k = .error .noWorkerAvailable k) ∧
      (k.1.IsRegistered id → (∃ w ∈ k.1.workers, w.awake = true) →
        ∃ index k', dispatch id k = .ok index k' ∧ Handed id index k k') ∧
      ∀ ids : List Nat, ids.Nodup → (∀ j ∈ ids, k.1.IsRegistered j ∧ ¬ k.1.isIdle j) →
        (∀ w ∈ k.1.workers, w.awake = true → w.owned = []) →
          ∀ n, (performAll k ((ids.take n).map .dispatch)).1.Balanced := by
  refine ⟨fun hid => ?_, dispatch_of_all_asleep, hk.handed, fun ids hids hready hempty n => ?_⟩
  · rw [dispatch, requireRegistered_bind, if_neg hid]
  · have hfree (j : Nat) : ∀ w ∈ k.1.workers, w.awake = true → j ∉ w.owned := fun w hw hawake => by
      simp [hempty w hw hawake]
    refine balanced_dispatches (fun v hv w _ hvawake _ => ?_)
      (hids.sublist (List.take_sublist n ids))
      (fun j hj => hready j (List.mem_of_mem_take hj)) fun j _ => hfree j
    rw [System.load, hempty v hv hvawake]
    exact Nat.zero_le _

/-! ### Two workers that fill up -/

def fleetSettings : Settings where
  arenaBytes := 65536
  maxArenaBytes := 65536
  workers := 3
  priorityBudget := 3000
  heapBytes := 64
  stackBytes := 64
  maxProcesses := 8

def fleetKernel : Kernel :=
  ({ settings := fleetSettings
     workers := [{ priority := 1000 }, { priority := 1000 }, { priority := 1000 }]
     console := {} }, .withLimit 65536 65536)

/-- Four processes that would run forever. The first is with worker 1, which is asleep; the other
two workers are awake and have nothing. -/
def mooredKernel : Kernel :=
  performAll fleetKernel [.generate none, .generate none, .generate none, .generate none,
    .bindProgram 0 [22, 0, 0, 0, 0], .bindProgram 1 [22, 0, 0, 0, 0],
    .bindProgram 2 [22, 0, 0, 0, 0], .bindProgram 3 [22, 0, 0, 0, 0],
    .sleepWorker 0, .sleepWorker 2, .dispatch 0, .sleepWorker 1, .wakeWorker 0, .wakeWorker 2]

theorem reachable_mooredKernel : Reachable [] mooredKernel := by
  have hcreate : Kernel.create fleetSettings = .ok fleetKernel := rfl
  apply (Reachable.create hcreate).performAll
  simp [Op.IsBindImage]

/-- Nobody is called 9. Process 0 goes from the worker that sleeps to the first that is awake. When
all four are handed out the awake workers have two each. -/
theorem dispatch_of_moored :
    Reachable [] mooredKernel ∧ mooredKernel.1.workers.map (·.owned) = [[], [0], []] ∧
      dispatch 9 mooredKernel = .error (.unknownProcess 9) mooredKernel ∧
      (∃ k', dispatch 0 mooredKernel = .ok 0 k' ∧ Handed 0 0 mooredKernel k') ∧
      (∀ n, (performAll mooredKernel (([3, 0, 2, 1].take n).map .dispatch)).1.Balanced) ∧
      (performAll mooredKernel ([3, 0, 2, 1].map .dispatch)).1.workers.map (·.owned) =
        [[3, 2], [], [0, 1]] := by
  obtain ⟨hunknown, -, hknown, hbalanced⟩ := dispatch_of_reachable reachable_mooredKernel 9
  obtain ⟨-, -, hgranted, -⟩ := dispatch_of_reachable reachable_mooredKernel 0
  obtain ⟨index, k', hdispatch, hhanded⟩ := hgranted (by decide +kernel) (by decide +kernel)
  have hfirst : mooredKernel.1.leastLoaded? = some 0 := by decide +kernel
  rw [dispatch_of_leastLoaded (by decide +kernel) hfirst] at hdispatch
  cases hdispatch
  refine ⟨reachable_mooredKernel, by decide +kernel, hunknown (by decide +kernel),
    ⟨_, dispatch_of_leastLoaded (by decide +kernel) hfirst, hhanded⟩, fun n => ?_,
    by decide +kernel⟩
  exact hbalanced [3, 0, 2, 1] (by decide) (by decide +kernel) (by decide +kernel) n

end Kernel

end BytecodeKernel
