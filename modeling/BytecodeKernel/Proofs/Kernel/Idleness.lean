import BytecodeKernel.Proofs.Kernel.Portions
/-!
When a kernel has come to rest. A pass counts the quanta in which something ran. A worker that has
an instruction for one of its processes gives it to the first of them for which it has one, since
nobody in front of that one takes anything; a worker that has none only lets processes grow older,
and leaves the work of the workers behind it as it was. So a pass counts nothing exactly if there
was no work when it began, and then there is none for all passes to come.
-/

namespace BytecodeKernel

namespace System

/-- The worker is awake and has at least one instruction for a process of its own that has something
to run. -/
def HasWork (s : System) (w : Worker) : Prop :=
  w.awake = true ∧ ∃ id ∈ w.owned, ∃ p, s.process? id = some p ∧ p.isIdle = false ∧
    1 ≤ Kernel.share w.priority p.priority

def AtRest (s : System) : Prop :=
  ∀ w ∈ s.workers, ¬ s.HasWork w

end System

namespace Kernel

variable {id index budget remaining limit : Nat} {ids indices : List Nat} {held : List (Nat × Nat)}
  {k k' : Kernel} {w : Worker}

/-- The number of quanta in which something ran. -/
def ranIn (stints : List Stint) : Nat :=
  stints.countP (·.ended ≠ .idle)

/-! ### What a pass counts -/

theorem ranIn_cons (x : Stint) (stints : List Stint) :
    ranIn (x :: stints) = if x.ended = .idle then ranIn stints else ranIn stints + 1 := by
  rw [ranIn, List.countP_cons, ← ranIn]
  split <;> simp_all

theorem ranIn_append (stints more : List Stint) :
    ranIn (stints ++ more) = ranIn stints + ranIn more :=
  List.countP_append

theorem ranIn_serveStints (budget remaining : Nat) (ids : List Nat) (k : Kernel) :
    (serve budget remaining ids k).1 = ranIn (serveStints budget remaining ids k) := by
  induction ids generalizing remaining k with
  | nil => rfl
  | cons id rest ih =>
    rw [serve_cons, serveStints]
    by_cases hremaining : remaining = 0
    · rw [if_pos hremaining, if_pos hremaining]
      rfl
    · rw [if_neg hremaining, if_neg hremaining]
      dsimp only
      split
      · exact ih remaining (ticked id k)
      · rw [ranIn_cons, ih]
        rfl

theorem ranIn_workerStints (index : Nat) (k : Kernel) :
    (workerPass index k).1 = ranIn (workerStints index k) := by
  rw [workerPass]
  simp only [bind, StateT.bind, get, getThe, MonadStateOf.get, StateT.get, pure]
  cases hw : k.1.workers[index]? with
  | none =>
    rw [workerStints, hw]
    rfl
  | some w =>
    rw [workerStints_eq hw, ← ranIn_serveStints]
    rfl

theorem ranIn_passesStints (indices : List Nat) (k : Kernel) :
    (passesFrom indices k).1 = ranIn (passesStints indices k) := by
  induction indices generalizing k with
  | nil => rfl
  | cons index rest ih =>
    rw [passesFrom, passesStints]
    simp only [bind, StateT.bind, get, getThe, MonadStateOf.get, StateT.get, pure]
    split
    · rw [ranIn_append, ← ranIn_workerStints, ← ih]
      rfl
    · rw [← ih]
      exact Nat.zero_add _

theorem ranIn_passStints (k : Kernel) : (runPass k).1 = ranIn (passStints k) :=
  ranIn_passesStints _ k

/-! ### Growing older -/

/-- Without a quantum processes only grow older. -/
theorem Turns.eq_tickedEach (h : Turns k [] k') : ∃ ids, k' = tickedEach ids k := by
  generalize hnone : ([] : List Stint) = stints at h
  induction h with
  | refl k => exact ⟨[], rfl⟩
  | tick id _ ih =>
    obtain ⟨ids, rfl⟩ := ih hnone
    exact ⟨id :: ids, rfl⟩
  | execute => contradiction

theorem workers_tickedEach (ids : List Nat) (k : Kernel) :
    (tickedEach ids k).1.workers = k.1.workers := by
  induction ids generalizing k with
  | nil => rfl
  | cons id rest ih => exact ih (ticked id k)

/-- Who has work neither depends on an age. -/
theorem hasWork_ticked : (ticked id k).1.HasWork w ↔ k.1.HasWork w := by
  refine and_congr_right fun _ => exists_congr fun j => and_congr_right fun _ => ?_
  rw [ticked, System.process?_modifyProcess]
  split
  · rename_i heq
    subst heq
    constructor
    · rintro ⟨q, hq, hidle, hshare⟩
      obtain ⟨p, hp, rfl⟩ := Option.map_eq_some_iff.1 hq
      exact ⟨p, hp, hidle, hshare⟩
    · rintro ⟨p, hp, hidle, hshare⟩
      exact ⟨p.tick, by rw [hp]; rfl, hidle, hshare⟩
  · rfl

theorem hasWork_tickedEach : (tickedEach ids k).1.HasWork w ↔ k.1.HasWork w := by
  induction ids generalizing k with
  | nil => rfl
  | cons id rest ih => exact ih.trans hasWork_ticked

theorem atRest_tickedEach : (tickedEach ids k).1.AtRest ↔ k.1.AtRest := by
  simp only [System.AtRest, workers_tickedEach, hasWork_tickedEach]

theorem shareIn_ticked (budget id : Nat) (k : Kernel) (j : Nat) :
    shareIn budget (ticked id k) j = shareIn budget k j := by
  rw [shareIn, shareIn, ticked, System.process?_modifyProcess]
  split
  · rename_i heq
    rw [heq, Option.map_map]
    rfl
  · rfl

/-- Nobody without a share has a quantum. -/
theorem serveStints_of_no_share (h : ∀ j ∈ ids, shareIn budget k j = 0) (remaining : Nat) :
    serveStints budget remaining ids k = [] := by
  induction ids generalizing remaining k with
  | nil => rfl
  | cons id rest ih =>
    obtain ⟨hid, hrest⟩ := List.forall_mem_cons.1 h
    have hserved : ∀ j, shareIn budget (serveOne budget remaining id k) j = shareIn budget k j := by
      intro j
      rw [serveOne, hid, Nat.zero_min, if_pos rfl]
      split
      · rfl
      · exact shareIn_ticked budget id k j
    rw [serveStints_cons, hid, Nat.zero_min, if_pos rfl, List.nil_append]
    exact ih (fun j hj => (hserved j).trans (hrest j hj)) _

/-! ### One worker -/

/-- A quantum in which nothing ran is one of a process with nothing to run. -/
theorem Reachable.ended_idle_iff (hk : Reachable held k) (id budget : Nat) :
    (execute id budget k).1 = .idle ↔ k.1.isIdle id := by
  constructor
  · intro hended
    refine (hk.housed.ready_or_idle hk.orderly id).resolve_left ?_
    rintro ⟨p, image, context, hready⟩
    rw [hready.execute, runQuantum_eq] at hended
    exact quantumOfEnd_ne_idle _ hended
  · intro hidle
    rw [execute_of_isIdle budget hidle]

/-- What a worker has for those in its order. -/
theorem Reachable.hasWork_iff (hk : Reachable held k) (hawake : w.awake = true) :
    k.1.HasWork w ↔ ∃ id ∈ orderOf w k, 1 ≤ shareIn w.priority k id := by
  have hshare {id : Nat} {p : Process} (hp : k.1.process? id = some p) :
      shareIn w.priority k id = share w.priority p.priority := by
    rw [shareIn, hp]
    rfl
  have hidle {id : Nat} {p : Process} (hp : k.1.process? id = some p) :
      k.1.isIdle id = p.isIdle := by
    rw [System.isIdle, hp]
    rfl
  constructor
  · rintro ⟨-, id, hid, p, hp, hrunnable, hle⟩
    refine ⟨id, (mem_orderOf hk.orderly).2 ⟨hid, ?_⟩, (hshare hp).symm ▸ hle⟩
    rw [hidle hp, hrunnable]
    exact Bool.false_ne_true
  · rintro ⟨id, hid, hle⟩
    obtain ⟨howned, hrunnable⟩ := (mem_orderOf hk.orderly).1 hid
    obtain ⟨p, hp⟩ := exists_record hrunnable
    exact ⟨hawake, id, howned, p, hp, Bool.eq_false_iff.2 (hidle hp ▸ hrunnable), hshare hp ▸ hle⟩

/-- A worker without work gives nobody a quantum. -/
theorem Reachable.workerStints_of_not_hasWork (hk : Reachable held k)
    (hw : k.1.workers[index]? = some w) (hawake : w.awake = true) (hnone : ¬ k.1.HasWork w) :
    workerStints index k = [] := by
  rw [workerStints_eq hw]
  refine serveStints_of_no_share (fun id hid => ?_) _
  rw [hk.shareIn_ticked hid]
  rw [hk.hasWork_iff hawake] at hnone
  exact Nat.lt_one_iff.1 (Nat.lt_of_not_le fun hle => hnone ⟨id, hid, hle⟩)

/-- A worker with work gives the first of those for which it has any a quantum, and that one
runs. -/
theorem Reachable.ranIn_pos_of_hasWork (hk : Reachable held k)
    (hw : k.1.workers[index]? = some w) (hwork : k.1.HasWork w) :
    0 < ranIn (workerStints index k) := by
  obtain ⟨i, hi, hishare⟩ := (hk.hasWork_iff hwork.1).1 hwork
  have hfound : ((orderOf w k).find? fun j => decide (1 ≤ shareIn w.priority k j)).isSome :=
    List.find?_isSome.2 ⟨i, hi, decide_eq_true hishare⟩
  obtain ⟨id, hid⟩ := Option.isSome_iff_exists.1 hfound
  obtain ⟨hshare, before, after, horder, hbefore⟩ := List.find?_eq_some_iff_append.1 hid
  replace hshare : 1 ≤ shareIn w.priority k id := of_decide_eq_true hshare
  replace hbefore : ∀ j ∈ before, shareIn w.priority k j = 0 := fun j hj => by
    simpa using hbefore j hj
  have hmem : id ∈ orderOf w k := horder ▸ List.mem_append_right _ List.mem_cons_self
  have hahead : ahead (orderOf w k) id = before := by
    rw [horder]
    exact ahead_append fun hmem => absurd (hbefore id hmem) (by omega)
  -- Nobody in front takes anything, so the worker still has its whole budget.
  have hgrant : grantFor w k id ≠ 0 := by
    have hzero : (before.map (shareIn w.priority k)).sum = 0 :=
      List.sum_eq_zero fun n hn => by
        obtain ⟨j, hj, rfl⟩ := List.mem_map.1 hn
        exact hbefore j hj
    have hpriority : w.priority ≠ 0 := by
      intro hzero
      rw [shareIn, share, hzero, Nat.zero_mul, Nat.zero_div] at hshare
      exact absurd hshare (by decide)
    rw [grantFor, leftFor, remainder, hahead, hzero]
    omega
  have hrunnable : ¬ (turnOf w k id).1.isIdle id := by
    refine (hk.runnable_or_gone_turnOf hmem).resolve_right ?_
    rintro ⟨-, x, hx, -⟩
    rw [hahead, serveStints_of_no_share fun j hj => ?_] at hx
    · exact absurd hx List.not_mem_nil
    · rw [hk.shareIn_ticked (horder ▸ List.mem_append_left _ hj)]
      exact hbefore j hj
  have hturn : Reachable held (turnOf w k id) := (hk.tickedEach _).serve _ _ _
  refine List.countP_pos_iff.2 ⟨stint id (grantFor w k id) (turnOf w k id), ?_, ?_⟩
  · rw [hk.workerStints_eq_map hw]
    exact List.mem_map.2 ⟨id, List.mem_filter.2 ⟨hmem, decide_eq_true hgrant⟩, rfl⟩
  · exact decide_eq_true fun hended => hrunnable ((hturn.ended_idle_iff id _).1 hended)

/-! ### All workers -/

theorem Reachable.passesStints_eq_nil (hk : Reachable held k)
    (hnone : ∀ index ∈ indices, ∀ w, k.1.workers[index]? = some w → ¬ k.1.HasWork w) :
    passesStints indices k = [] := by
  induction indices generalizing k with
  | nil => rfl
  | cons index rest ih =>
    obtain ⟨hfirst, hrest⟩ := List.forall_mem_cons.1 hnone
    rw [passesStints]
    cases hw : k.1.workers[index]? with
    | none => exact ih hk hrest
    | some w =>
      cases hawake : w.awake with
      | false => simpa [hawake] using ih hk hrest
      | true =>
        have hstints := hk.workerStints_of_not_hasWork hw hawake (hfirst w hw)
        have hturns := turns_workerPass index k
        rw [hstints] at hturns
        obtain ⟨ids, hafter⟩ := hturns.eq_tickedEach
        rw [Option.map_some, Option.getD_some, hawake, if_pos rfl, hstints, List.nil_append, hafter]
        refine ih (hk.tickedEach ids) fun i hi v hv => ?_
        rw [workers_tickedEach] at hv
        rw [hasWork_tickedEach]
        exact hrest i hi v hv

/-- The first worker with work lets something run. -/
theorem Reachable.ranIn_passesStints_pos (hk : Reachable held k) (hindex : index ∈ indices)
    (hw : k.1.workers[index]? = some w) (hwork : k.1.HasWork w) :
    0 < ranIn (passesStints indices k) := by
  induction indices generalizing k with
  | nil => exact absurd hindex List.not_mem_nil
  | cons i rest ih =>
    rw [passesStints]
    cases hv : k.1.workers[i]? with
    | none =>
      refine ih hk ((List.mem_cons.1 hindex).resolve_left ?_) hw hwork
      rintro rfl
      exact Option.some_ne_none w (hw.symm.trans hv)
    | some v =>
      by_cases hvwork : k.1.HasWork v
      · rw [Option.map_some, Option.getD_some, hvwork.1, if_pos rfl, ranIn_append]
        have hpos := hk.ranIn_pos_of_hasWork hv hvwork
        omega
      · have hmem : index ∈ rest := by
          refine (List.mem_cons.1 hindex).resolve_left ?_
          rintro rfl
          exact hvwork (Option.some.inj (hw.symm.trans hv) ▸ hwork)
        cases hawake : v.awake with
        | false => simpa [hawake] using ih hk hmem hw hwork
        | true =>
          have hstints := hk.workerStints_of_not_hasWork hv hawake hvwork
          have hturns := turns_workerPass i k
          rw [hstints] at hturns
          obtain ⟨ids, hafter⟩ := hturns.eq_tickedEach
          rw [Option.map_some, Option.getD_some, hawake, if_pos rfl, hstints, List.nil_append,
            hafter]
          exact ih (hk.tickedEach ids) hmem ((workers_tickedEach ids k).symm ▸ hw)
            (hasWork_tickedEach.2 hwork)

theorem Reachable.passStints_eq_nil (hk : Reachable held k) (hrest : k.1.AtRest) :
    passStints k = [] :=
  hk.passesStints_eq_nil fun _ _ w hw => hrest w (List.mem_of_getElem? hw)

theorem Reachable.atRest_runPass (hk : Reachable held k) (hrest : k.1.AtRest) :
    (runPass k).2.1.AtRest := by
  have hturns := turns_runPass k
  rw [hk.passStints_eq_nil hrest] at hturns
  obtain ⟨ids, hafter⟩ := hturns.eq_tickedEach
  rw [hafter]
  exact atRest_tickedEach.2 hrest

/-- A pass counts nothing exactly if there was no work when it began. -/
theorem Reachable.runPass_eq_zero_iff (hk : Reachable held k) :
    (runPass k).1 = 0 ↔ k.1.AtRest := by
  rw [ranIn_passStints]
  constructor
  · intro hzero w hw hwork
    obtain ⟨index, hindex⟩ := List.getElem?_of_mem hw
    have hmem : index ∈ List.range k.1.workers.length :=
      List.mem_range.2 (List.getElem?_eq_some_iff.1 hindex).1
    exact (hk.ranIn_passesStints_pos hmem hindex hwork).ne' hzero
  · intro hrest
    rw [hk.passStints_eq_nil hrest]
    rfl

/-! ### Pass after pass -/

theorem Reachable.atRest_runMore (hk : Reachable held k) (made : Nat)
    (hstopped : (runMore made limit k).1 < made + limit) :
    (runMore made limit k).2.1.AtRest := by
  induction limit generalizing made k with
  | zero => exact absurd hstopped (Nat.lt_irrefl made)
  | succ limit ih =>
    have hsucc : runMore made (limit + 1) k =
        if (runPass k).1 = 0 then (made, (runPass k).2)
        else runMore (made + 1) limit (runPass k).2 := by
      rw [runMore]
      change (if (runPass k).1 = 0 then pure made else runMore (made + 1) limit) (runPass k).2 = _
      split <;> rfl
    rw [hsucc] at hstopped ⊢
    split
    · exact hk.atRest_runPass (hk.runPass_eq_zero_iff.1 ‹_›)
    · rw [if_neg ‹_›] at hstopped
      have hnext : Reachable held (runPass k).2 := hk.perform .runPass not_false
      exact ih hnext (made + 1) (by omega)

theorem Reachable.atRest_passes (hk : Reachable held k) (hrest : k.1.AtRest) (n : Nat) :
    (Kernel.performAll k (List.replicate n .runPass)).1.AtRest ∧
      stintsOf (List.replicate n .runPass) k = [] := by
  induction n generalizing k with
  | zero => exact ⟨hrest, rfl⟩
  | succ n ih =>
    obtain ⟨hlater, hstints⟩ := ih (hk.perform .runPass not_false) (hk.atRest_runPass hrest)
    refine ⟨hlater, ?_⟩
    show passStints k ++ stintsOf (List.replicate n .runPass) (Kernel.perform k .runPass) = []
    rw [hk.passStints_eq_nil hrest, hstints]
    rfl

/-- A pass says that nothing ran exactly if no awake worker had an instruction for a process with
something to run when it began. So when passes stop before they have to, nothing is left to do, and
however many passes are made after that, no process has a quantum in them. -/
theorem idle_of_reachable (hk : Reachable held k) :
    ((runPass k).1 = 0 ↔ ¬ ∃ w ∈ k.1.workers, k.1.HasWork w) ∧
      ∀ limit, (runUntilIdle limit k).1 < limit →
        (¬ ∃ w ∈ (runUntilIdle limit k).2.1.workers, (runUntilIdle limit k).2.1.HasWork w) ∧
          ∀ n, stintsOf (List.replicate n .runPass) (runUntilIdle limit k).2 = [] ∧
            (runPass (performAll (runUntilIdle limit k).2 (List.replicate n .runPass))).1 = 0 := by
  have hrest {s : System} : s.AtRest ↔ ¬ ∃ w ∈ s.workers, s.HasWork w := by
    simp only [System.AtRest, not_exists, not_and]
  refine ⟨hk.runPass_eq_zero_iff.trans hrest, fun limit hstopped => ?_⟩
  have hidle : (runUntilIdle limit k).2.1.AtRest :=
    hk.atRest_runMore 0 (hstopped.trans_eq (Nat.zero_add limit).symm)
  have hend : Reachable held (runUntilIdle limit k).2 := hk.perform (.runUntilIdle limit) not_false
  refine ⟨hrest.1 hidle, fun n => ?_⟩
  obtain ⟨hlater, hstints⟩ := hend.atRest_passes hidle n
  have hpasses : Reachable held (performAll (runUntilIdle limit k).2 (List.replicate n .runPass)) :=
    hend.performAll fun op hop => List.eq_of_mem_replicate hop ▸ not_false
  exact ⟨hstints, hpasses.runPass_eq_zero_iff.2 hlater⟩

/-! ### Two that are left over -/

/-- Process 0 has something to run but no weight, and process 2 belongs to a worker that sleeps.
Process 1 pushes three numbers, two in each pass. -/
def eveningKernel : Kernel :=
  performAll familyKernel [.generate none, .generate none, .generate none,
    .bindProgram 0 [22, 0, 0, 0, 0], .bindProgram 1 [0, 0, 0, 0, 0, 0, 0, 0, 0, 1, 0, 0, 0, 0, 2],
    .bindProgram 2 [22, 0, 0, 0, 0], .setPriority 0 0, .setPriority 1 1, .setWorkerPriority 0 200,
    .sleepWorker 0, .dispatch 2, .wakeWorker 0, .sleepWorker 1, .dispatch 0, .dispatch 1]

theorem reachable_eveningKernel : Reachable [] eveningKernel := by
  have hcreate : Kernel.create familySettings = .ok familyKernel := rfl
  apply (Reachable.create hcreate).performAll
  simp [Op.IsBindImage]

/-- Two passes, and what is left has to wait for the client. -/
theorem idle_of_evening :
    Reachable [] eveningKernel ∧ (∃ w ∈ eveningKernel.1.workers, eveningKernel.1.HasWork w) ∧
      (runUntilIdle 9 eveningKernel).1 = 2 ∧
      (¬ (runUntilIdle 9 eveningKernel).2.1.isIdle 0 ∧
        ¬ (runUntilIdle 9 eveningKernel).2.1.isIdle 2) ∧
      (¬ ∃ w ∈ (runUntilIdle 9 eveningKernel).2.1.workers,
        (runUntilIdle 9 eveningKernel).2.1.HasWork w) ∧
      ∀ n, stintsOf (List.replicate n .runPass) (runUntilIdle 9 eveningKernel).2 = [] := by
  obtain ⟨hpass, hpasses⟩ := idle_of_reachable reachable_eveningKernel
  have hfirst : (runPass eveningKernel).1 ≠ 0 := by decide +kernel
  have hmade : (runUntilIdle 9 eveningKernel).1 = 2 := by decide +kernel
  obtain ⟨hnone, hlater⟩ := hpasses 9 (hmade.trans_lt (by decide))
  exact ⟨reachable_eveningKernel, not_not.1 (mt hpass.2 hfirst), hmade, by decide +kernel, hnone,
    fun n => (hlater n).1⟩

end Kernel

end BytecodeKernel
