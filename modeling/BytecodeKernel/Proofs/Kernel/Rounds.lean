import BytecodeKernel.Proofs.Kernel.Reassignments
import BytecodeKernel.Proofs.Kernel.Schedules
import Mathlib.Algebra.Order.BigOperators.Group.List
import Mathlib.Algebra.Order.Ring.Nat
/-!
How often a process runs in one pass. A worker serves those it owns when its turn comes, and each of
them once. But the turns of the workers come one after the other, and a program may dispatch a
process that had its quantum, itself included, to a worker whose turn is yet to come. So a pass
gives a process one quantum, and another one for each quantum in which it is dispatched at most.
-/

namespace BytecodeKernel

/-- Those who have a record are served, each as often as it is on the list. -/
theorem System.Orderly.fairnessOrder_perm {s : System} {ending : Set Nat} (hs : s.Orderly ending)
    (ids : List Nat) :
    (s.fairnessOrder ids).Perm (ids.filter fun id => (s.process? id).isSome) := by
  have hranks : (ids.filterMap fun id => (s.process? id).map (·.rank)).map (·.id) =
      ids.filter fun id => (s.process? id).isSome := by
    induction ids with
    | nil => rfl
    | cons id rest ih =>
      cases hp : s.process? id with
      | none => simpa [hp] using ih
      | some p => simpa [hp, Process.rank, (hs.related.named id p hp).1] using ih
  exact hranks ▸ (Rank.fairnessOrder_perm _).map _

namespace Kernel

/-- How often a process is given a quantum. -/
def quantaOf (id : Nat) (stints : List Stint) : Nat :=
  stints.countP (·.process = id)

/-- In this quantum the process was dispatched, and a worker took it. -/
def Stint.Dispatches (x : Stint) (id : Nat) : Prop :=
  ⟨.dispatch id, .ok 0⟩ ∈ x.requests

instance (x : Stint) (id : Nat) : Decidable (x.Dispatches id) :=
  inferInstanceAs (Decidable (_ ∈ _))

/-- The number of quanta in which a process was dispatched. -/
def dispatchesOf (id : Nat) (stints : List Stint) : Nat :=
  stints.countP (·.Dispatches id)

/-- The processes of a worker. -/
def ownedBy (index : Nat) (k : Kernel) : List Nat :=
  (k.1.workers[index]?.map (·.owned)).getD []

variable {id index budget remaining : Nat} {ids indices : List Nat} {held : List (Nat × Nat)}
  {k k' : Kernel} {stints : List Stint} {x : Stint} {log : List Exchange} {w : Worker}

/-! ### From one quantum to the next -/

theorem reassigns_ticked (id : Nat) (k : Kernel) :
    k.1.Reassigns Process.priority [] (ticked id k).1 :=
  System.reassigns_modify (f := (·.tick)) (fun _ => rfl) id []

theorem Reachable.reassigns_execute (hk : Reachable held k) (id budget : Nat) :
    k.1.Reassigns Process.priority (stint id budget k).requests (execute id budget k).2.1 := by
  rcases hk.housed.ready_or_idle hk.orderly id with ⟨p, image, context, hready⟩ | hidle
  · exact (reassigns_ticked id k).trans (hready.reassigns hk.housed budget).priority
  · rw [stint_of_isIdle hidle, execute_of_isIdle budget hidle]
    exact .refl [] k.1

/-- However many quanta there are, priorities stay, and who changes its worker was dispatched. -/
theorem Turns.reassigns (h : Turns k stints k') (hk : Reachable held k) :
    k.1.Reassigns Process.priority (stints.flatMap (·.requests)) k'.1 := by
  induction h with
  | refl k => exact .refl [] k.1
  | tick id _ ih =>
    exact (reassigns_ticked id _).trans (ih (hk.perform (.tick id) not_false))
  | execute id budget _ ih =>
    exact (hk.reassigns_execute id budget).trans (ih (hk.perform (.execute id budget) not_false))

theorem nodup_owned (hs : k.1.Orderly ∅) (hw : k.1.workers[index]? = some w) : w.owned.Nodup :=
  (System.nodup_flatMap_owned.1 hs.staffed.nodup).1 w (List.mem_of_getElem? hw)

theorem owner?_of_mem_ownedBy (hs : k.1.Orderly ∅) (hid : id ∈ ownedBy index k) :
    k.1.owner? id = some index := by
  rw [ownedBy] at hid
  cases hw : k.1.workers[index]? with
  | none => simp [hw] at hid
  | some w =>
    rw [hw] at hid
    obtain ⟨hlt, rfl⟩ := List.getElem?_eq_some_iff.1 hw
    have hapart := List.pairwise_iff_getElem.1 (System.nodup_flatMap_owned.1 hs.staffed.nodup).2
    refine List.findIdx?_eq_some_iff_getElem.2 ⟨hlt, decide_eq_true hid, fun i hi hmem => ?_⟩
    exact hapart i index _ hlt hi (of_decide_eq_true hmem) hid

/-- No process has two workers, and none has one twice. -/
theorem nodup_ownedBy (hs : k.1.Orderly ∅) (hindices : indices.Nodup) :
    (indices.flatMap (ownedBy · k)).Nodup := by
  refine List.nodup_flatMap.2 ⟨fun i _ => ?_, hindices.imp fun {i j} hne c hc hc' => hne ?_⟩
  · rw [ownedBy]
    cases hw : k.1.workers[i]? with
    | none => exact List.nodup_nil
    | some w => exact nodup_owned hs hw
  · have hi := owner?_of_mem_ownedBy hs hc
    rw [owner?_of_mem_ownedBy hs hc'] at hi
    exact (Option.some.inj hi).symm

/-- Without a dispatch of the process no worker has it that did not have it before. -/
theorem mem_ownedBy_of_reassigns (h : k.1.Reassigns Process.priority log k'.1)
    (hid : id ∈ ownedBy index k') : id ∈ ownedBy index k ∨ ⟨.dispatch id, .ok 0⟩ ∈ log := by
  rw [ownedBy] at hid
  cases hw : k'.1.workers[index]? with
  | none => simp [hw] at hid
  | some w =>
    rw [hw] at hid
    obtain ⟨v, hv, hreassigns⟩ := h.workers index w hw
    rw [ownedBy, hv]
    exact hreassigns.owned id hid

theorem dispatchesOf_pos (h : ⟨.dispatch id, .ok 0⟩ ∈ stints.flatMap (·.requests)) :
    0 < dispatchesOf id stints := by
  obtain ⟨x, hx, hmem⟩ := List.mem_flatMap.1 h
  exact List.countP_pos_iff.2 ⟨x, hx, decide_eq_true hmem⟩

/-! ### Who is served -/

theorem processes_serveStints (budget remaining : Nat) (ids : List Nat) (k : Kernel) :
    ((serveStints budget remaining ids k).map (·.process)).Sublist ids := by
  induction ids generalizing remaining k with
  | nil => exact .refl []
  | cons id rest ih =>
    rw [serveStints]
    split
    · exact List.nil_sublist _
    · dsimp only
      split
      · exact (ih remaining _).cons id
      · exact (ih _ _).cons_cons id

theorem orderly_tickedEach (hs : k.1.Orderly ∅) (ids : List Nat) :
    (tickedEach ids k).1.Orderly ∅ :=
  ((upholds_tracks k.1).tickEach ⟨hs, .refl _⟩ ids).orderly

theorem orderOf_perm (hs : k.1.Orderly ∅) (w : Worker) :
    (orderOf w k).Perm ((w.owned.partition k.1.isIdle).2.filter
      fun id => ((tickedEach (idleOf w k) k).1.process? id).isSome) :=
  (orderly_tickedEach hs (idleOf w k)).fairnessOrder_perm _

/-- In its pass a worker serves those it owns, and each of them once. -/
theorem quantaOf_workerStints_le (hs : k.1.Orderly ∅) (id index : Nat) :
    quantaOf id (workerStints index k) ≤ (ownedBy index k).count id := by
  have hcount : quantaOf id (workerStints index k) =
      ((workerStints index k).map (·.process)).count id := by
    rw [quantaOf, List.count, List.countP_map]
    rfl
  rw [hcount, ownedBy]
  cases hw : k.1.workers[index]? with
  | none =>
    rw [workerStints, hw]
    exact Nat.le_refl 0
  | some w =>
    rw [workerStints_eq hw]
    refine ((processes_serveStints _ _ _ _).count_le id).trans ?_
    refine ((orderOf_perm hs w).count_eq id).trans_le ((List.filter_sublist.count_le id).trans ?_)
    rw [List.partition_eq_filter_filter]
    exact List.filter_sublist.count_le id

/-- A process has as many quanta as workers of the pass own it in the beginning, and dispatches. -/
theorem quantaOf_passesStints_le (hk : Reachable held k) (hindices : indices.Nodup) (id : Nat) :
    quantaOf id (passesStints indices k) ≤
      (indices.flatMap (ownedBy · k)).count id + dispatchesOf id (passesStints indices k) := by
  induction indices generalizing k with
  | nil => exact Nat.zero_le _
  | cons index rest ih =>
    have hrest := (List.nodup_cons.1 hindices).2
    rw [List.flatMap_cons, List.count_append, passesStints]
    split
    · have hk' : Reachable held (workerPass index k).2 := hk.perform (.workerPass index) not_false
      have hlater := ih hk' hrest
      have hnow := quantaOf_workerStints_le hk.orderly id index
      have hreassigns := (turns_workerPass index k).reassigns hk
      -- Who is on the way to a worker yet to come was on it before, or is dispatched now.
      have howned : (rest.flatMap (ownedBy · (workerPass index k).2)).count id ≤
          (rest.flatMap (ownedBy · k)).count id + dispatchesOf id (workerStints index k) := by
        have honce := List.nodup_iff_count_le_one.1 (nodup_ownedBy hk'.orderly hrest) id
        by_cases hmem : id ∈ rest.flatMap (ownedBy · (workerPass index k).2)
        · obtain ⟨i, hi, hid⟩ := List.mem_flatMap.1 hmem
          rcases mem_ownedBy_of_reassigns hreassigns hid with hbefore | hdispatched
          · have hcount : 0 < (rest.flatMap (ownedBy · k)).count id :=
              List.count_pos_iff.2 (List.mem_flatMap.2 ⟨i, hi, hbefore⟩)
            omega
          · have := dispatchesOf_pos hdispatched
            omega
        · rw [List.count_eq_zero_of_not_mem hmem]
          exact Nat.zero_le _
      simp only [quantaOf, dispatchesOf, List.countP_append] at *
      omega
    · exact (ih hk hrest).trans (Nat.add_le_add_right (Nat.le_add_left _ _) _)

/-! ### What it is given -/

theorem spent_stint_le (id budget : Nat) (k : Kernel) : (stint id budget k).spent ≤ budget := by
  rw [stint, quantumSpent]
  split
  · exact Nat.zero_le _
  · split
    · exact Runner.spent_le _ _ _
    · exact Nat.zero_le _

/-- A quantum of a process is no longer than its share. -/
theorem spent_serveStints_le (hk : Reachable held k) (hx : x ∈ serveStints budget remaining ids k) :
    ∃ p, (serve budget remaining ids k).2.1.process? x.process = some p ∧
      x.spent ≤ share budget p.priority := by
  induction ids generalizing remaining k with
  | nil => exact absurd hx List.not_mem_nil
  | cons id rest ih =>
    rw [serve_cons]
    rw [serveStints] at hx
    split at hx
    · exact absurd hx List.not_mem_nil
    · rw [if_neg ‹_›]
      dsimp only at hx ⊢
      split at hx
      · rw [if_pos ‹_›]
        exact ih (hk.perform (.tick id) not_false) hx
      · rw [if_neg ‹_›]
        rename_i hgrant
        generalize hg : min (share budget (((k.1.process? id).map (·.priority)).getD 0))
          remaining = grant at hx hgrant ⊢
        have hk' : Reachable held (execute id grant k).2 :=
          hk.perform (.execute id grant) not_false
        rcases List.mem_cons.1 hx with rfl | hx
        · cases hp : k.1.process? id with
          | none => simp [hp, share] at hg; omega
          | some p =>
            rw [hp] at hg
            have hreassigns := (hk.reassigns_execute id grant).trans
              ((turns_serve budget (remaining - grant) rest _).reassigns hk')
            obtain ⟨q, hq, hpriority⟩ := hreassigns.records id p hp
            refine ⟨q, hq, ?_⟩
            rw [hpriority]
            exact (spent_stint_le id grant k).trans (hg ▸ Nat.min_le_left _ _)
        · exact ih hk' hx

theorem share_mono {fewer more : Nat} (h : fewer ≤ more) (priority : Nat) :
    share fewer priority ≤ share more priority :=
  Nat.div_le_div_right (Nat.mul_le_mul_right priority h)

theorem Reachable.tickedEach (hk : Reachable held k) (ids : List Nat) :
    Reachable held (Kernel.tickedEach ids k) := by
  induction ids generalizing k with
  | nil => exact hk
  | cons id rest ih => exact ih (hk.perform (.tick id) not_false)

theorem spent_workerStints_le (hk : Reachable held k) (hbudget : ∀ w ∈ k.1.workers,
    w.priority ≤ budget) (hx : x ∈ workerStints index k) :
    ∃ p, (workerPass index k).2.1.process? x.process = some p ∧
      x.spent ≤ share budget p.priority := by
  cases hw : k.1.workers[index]? with
  | none => simp [workerStints, hw] at hx
  | some w =>
    rw [workerStints_eq hw] at hx
    obtain ⟨p, hp, hspent⟩ := spent_serveStints_le (hk.tickedEach _) hx
    rw [workerPass_eq hw]
    exact ⟨p, hp, hspent.trans (share_mono (hbudget w (List.mem_of_getElem? hw)) _)⟩

theorem spent_passesStints_le (hk : Reachable held k) (hbudget : ∀ w ∈ k.1.workers,
    w.priority ≤ budget) (hx : x ∈ passesStints indices k) :
    ∃ p, (passesFrom indices k).2.1.process? x.process = some p ∧
      x.spent ≤ share budget p.priority := by
  induction indices generalizing k with
  | nil => exact absurd hx List.not_mem_nil
  | cons index rest ih =>
    rw [passesFrom_cons]
    rw [passesStints] at hx
    split at hx
    · rw [if_pos ‹_›]
      have hk' : Reachable held (workerPass index k).2 := hk.perform (.workerPass index) not_false
      have hreassigns := (turns_workerPass index k).reassigns hk
      rcases List.mem_append.1 hx with hx | hx
      · obtain ⟨p, hp, hspent⟩ := spent_workerStints_le hk hbudget hx
        obtain ⟨q, hq, hpriority⟩ :=
          ((turns_passesFrom rest _).reassigns hk').records x.process p hp
        exact ⟨q, hq, hpriority ▸ hspent⟩
      · refine ih hk' (fun w hw => ?_) hx
        obtain ⟨i, hi⟩ := List.getElem?_of_mem hw
        obtain ⟨v, hv, hsame⟩ := hreassigns.workers i w hi
        exact hsame.priority.trans_le (hbudget v (List.mem_of_getElem? hv))
    · rw [if_neg ‹_›]
      exact ih hk hbudget hx

/-- Quanta of at most so many instructions each. -/
theorem spentBy_le {bound : Nat} (h : ∀ x ∈ stints, x.process = id → x.spent ≤ bound) :
    spentBy id stints ≤ quantaOf id stints * bound := by
  have hsum := List.sum_le_card_nsmul ((stints.filter (·.process = id)).map (·.spent)) bound
    fun n hn => by
      obtain ⟨x, hx, rfl⟩ := List.mem_map.1 hn
      obtain ⟨hmem, hid⟩ := List.mem_filter.1 hx
      exact h x hmem (of_decide_eq_true hid)
  rwa [List.length_map, Nat.nsmul_eq_mul, ← List.countP_eq_length_filter] at hsum

/-! ### One pass of all workers -/

/-- In a pass of all workers a process has one quantum, and one more for each quantum in which it
is dispatched at most; in each of them it gets no more than its share of the largest budget. -/
theorem quanta_of_pass (hk : Reachable held k) (id : Nat) :
    quantaOf id (passStints k) ≤ 1 + dispatchesOf id (passStints k) ∧
      ∀ budget p, (∀ w ∈ k.1.workers, w.priority ≤ budget) →
        (k.1.process? id = some p ∨ (runPass k).2.1.process? id = some p) →
        spentBy id (passStints k) ≤
          (1 + dispatchesOf id (passStints k)) * share budget p.priority := by
  have hquanta : quantaOf id (passStints k) ≤ 1 + dispatchesOf id (passStints k) := by
    refine (quantaOf_passesStints_le hk List.nodup_range id).trans ?_
    have honce := List.nodup_iff_count_le_one.1 (nodup_ownedBy hk.orderly
      (List.nodup_range (n := k.1.workers.length))) id
    exact Nat.add_le_add_right honce _
  refine ⟨hquanta, fun budget p hbudget hp => ?_⟩
  refine (spentBy_le fun x hx hid => ?_).trans (Nat.mul_le_mul_right _ hquanta)
  obtain ⟨q, hq, hspent⟩ := spent_passesStints_le hk hbudget hx
  rw [hid] at hq
  have hpriority : q.priority = p.priority := by
    rcases hp with hp | hp
    · obtain ⟨r, hr, hsame⟩ := ((turns_runPass k).reassigns hk).records id p hp
      exact (congrArg Process.priority (Option.some.inj (hq.symm.trans hr))).trans hsame
    · exact congrArg Process.priority (Option.some.inj (hq.symm.trans hp))
  exact hpriority ▸ hspent

/-! ### A process that goes on at the next worker -/

def pairSettings : Settings where
  arenaBytes := 1048576
  maxArenaBytes := 1048576
  workers := 2
  priorityBudget := 1000
  heapBytes := 2048
  stackBytes := 1024

def pairKernel : Kernel :=
  ({ settings := pairSettings
     workers := [{ priority := 500 }, { priority := 500 }]
     console := {} }, .withLimit 1048576 1048576)

/-- Dispatches process 0 and pushes the numbers from 1 to 9. -/
def wandererProgram : List UInt8 :=
  [0, 0, 0, 0, 0, 4] ++ (List.range' 1 9).flatMap fun n => [0, 0, 0, 0, n.toUInt8]

/-- The program is that of process 0, which gets 5 instructions a quantum at either worker. -/
def wandererKernel : Kernel :=
  performAll pairKernel
    [.generate none, .setPriority 0 1, .bindProgram 0 wandererProgram, .dispatch 0]

theorem reachable_wandererKernel : Reachable [] wandererKernel := by
  have hcreate : Kernel.create pairSettings = .ok pairKernel := rfl
  apply (Reachable.create hcreate).performAll
  simp [Op.IsBindImage]

/-- One dispatch, and twice the share. -/
theorem quanta_of_wanderer :
    Reachable [] wandererKernel ∧ dispatchesOf 0 (passStints wandererKernel) = 1 ∧
      quantaOf 0 (passStints wandererKernel) ≤ 2 ∧
      spentBy 0 (passStints wandererKernel) ≤ 2 * share 500 1 := by
  have hdispatches : dispatchesOf 0 (passStints wandererKernel) = 1 := by decide +kernel
  have hbudget : ∀ w ∈ wandererKernel.1.workers, w.priority ≤ 500 := by decide +kernel
  have hrecord : (wandererKernel.1.process? 0).map (·.priority) = some 1 := by decide +kernel
  obtain ⟨p, hp, hpriority⟩ := Option.map_eq_some_iff.1 hrecord
  obtain ⟨hquanta, hspent⟩ := quanta_of_pass reachable_wandererKernel 0
  have hshare := hspent 500 p hbudget (.inl hp)
  rw [hdispatches] at hquanta hshare
  rw [hpriority] at hshare
  exact ⟨reachable_wandererKernel, hdispatches, hquanta, hshare⟩

/-- The process runs at one worker, dispatches itself to the other and runs there as well, in the
same pass. -/
theorem second_quantum_of_wanderer :
    Reachable [] wandererKernel ∧
      (passStints wandererKernel).map (fun x => (x.process, x.spent)) = [(0, 5), (0, 5)] ∧
      ¬ quantaOf 0 (passStints wandererKernel) ≤ 1 ∧
      (∀ w ∈ wandererKernel.1.workers, w.priority ≤ 500) ∧
      (wandererKernel.1.process? 0).map (·.priority) = some 1 ∧
      ¬ spentBy 0 (passStints wandererKernel) ≤ share 500 1 := by
  refine ⟨reachable_wandererKernel, ?_, ?_, ?_, ?_, ?_⟩ <;> decide +kernel

end Kernel

end BytecodeKernel
