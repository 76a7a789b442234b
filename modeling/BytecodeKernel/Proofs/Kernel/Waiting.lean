import BytecodeKernel.Proofs.Kernel.Rounds
import Mathlib.Algebra.Order.BigOperators.Group.List
import Mathlib.Algebra.Order.Ring.Nat
/-!
How long a process waits. In each pass of its worker the first in the order either runs or grows
older. A scan can pass a process over for one that is ahead of it, but by at most the gap for each
process on the list, so whoever is first is not too far ahead. The process that waits does not grow
older, and of the others one does in each pass. Hence the sum of what the others may still gain on
it decreases, and bounds the number of passes.
-/

namespace BytecodeKernel

/-! ### Who is first -/

namespace Rank

variable {p first : Rank} {ranks others : List Rank}

/-- Each change of the lead gives away the gap at most. -/
theorem cycle_select_le (before : List Rank) (best : Rank) (between rest : List Rank) :
    (select before best between rest).1.cycle ≤ best.cycle + starvationGap * rest.length := by
  induction rest generalizing before best between with
  | nil => exact Nat.le_refl _
  | cons r rest ih =>
    simp only [select, List.length_cons, Nat.mul_succ]
    split
    · rename_i hwins
      have hlead := ih (before ++ best :: between) r []
      have hgap : r.cycle ≤ best.cycle + starvationGap := by
        simp only [Precedes] at hwins
        omega
      omega
    · have hlead := ih before best (between ++ [r])
      omega

/-- So the winner is at most the gap ahead of anyone for each that came after the first. -/
theorem cycle_select_le_of_mem (before : List Rank) (best : Rank) (between rest : List Rank)
    (hp : p ∈ rest) :
    (select before best between rest).1.cycle ≤ p.cycle + starvationGap * rest.length := by
  induction rest generalizing before best between with
  | nil => exact absurd hp List.not_mem_nil
  | cons r rest ih =>
    simp only [select, List.length_cons, Nat.mul_succ]
    rcases List.mem_cons.1 hp with rfl | hp
    · split
      · have hlead := cycle_select_le (before ++ best :: between) p [] rest
        omega
      · rename_i hloses
        have hlead := cycle_select_le before best (between ++ [p]) rest
        have hgap : best.cycle ≤ p.cycle + starvationGap := by
          simp only [Precedes] at hloses
          omega
        omega
    · split
      · have hlead := ih (before ++ best :: between) r [] hp
        omega
      · have hlead := ih before best (between ++ [r]) hp
        omega

theorem cycle_first_le (horder : fairnessOrder ranks = first :: others) (hp : p ∈ ranks) :
    first.cycle ≤ p.cycle + starvationGap * (ranks.length - 1) := by
  cases ranks with
  | nil => exact absurd hp List.not_mem_nil
  | cons r rest =>
    rw [fairnessOrder_cons, List.cons.injEq] at horder
    rw [← horder.1, List.length_cons, Nat.add_sub_cancel]
    rcases List.mem_cons.1 hp with rfl | hp
    · exact cycle_select_le [] p [] rest
    · exact cycle_select_le_of_mem [] r [] rest hp

end Rank

theorem System.Orderly.cycle_first_le {s : System} {ending : Set Nat} (hs : s.Orderly ending)
    {id first : Nat} {ids others : List Nat} {p : Process}
    (horder : s.fairnessOrder ids = first :: others) (hid : id ∈ ids)
    (hp : s.process? id = some p) : ∃ q, s.process? first = some q ∧
      q.cycle ≤ p.cycle + starvationGap * (ids.length - 1) := by
  obtain ⟨winner, rest, hwinner, rfl, -⟩ := List.map_eq_cons_iff.1 horder
  have hmem : winner ∈ ids.filterMap fun id => (s.process? id).map (·.rank) :=
    (Rank.fairnessOrder_perm _).subset (hwinner ▸ List.mem_cons_self)
  obtain ⟨j, -, hrank⟩ := List.mem_filterMap.1 hmem
  obtain ⟨q, hq, rfl⟩ := Option.map_eq_some_iff.1 hrank
  have hcycle : q.rank.cycle ≤ p.rank.cycle + starvationGap * (_ - 1) :=
    Rank.cycle_first_le hwinner (List.mem_filterMap.2 ⟨id, hid, by rw [hp]; rfl⟩)
  refine ⟨q, ?_, hcycle.trans (Nat.add_le_add_left (Nat.mul_le_mul_left _ ?_) _)⟩
  · rwa [show q.rank.id = j from (hs.related.named j q hq).1]
  · exact Nat.sub_le_sub_right (List.length_filterMap_le _ _) 1

/-! ### How processes grow older -/

theorem Process.rank_tick_congr {p q : Process} (h : q.rank = p.rank) :
    q.tick.rank = p.tick.rank := by
  obtain ⟨hid, hpriority, hcycle⟩ := Rank.mk.inj h
  simp only [Process.rank, Process.tick, Process.age, hid, hpriority, hcycle]

/-- From one system to a later one, those on the list have grown older by a round or not at all, and
the others have not. -/
def System.Ages (ids : List Nat) (s t : System) : Prop :=
  ∀ j p, s.process? j = some p →
    ∃ q, t.process? j = some q ∧ (q.rank = p.rank ∨ j ∈ ids ∧ q.rank = p.tick.rank)

namespace System

variable {s t u : System} {ids more : List Nat} {j : Nat} {p : Process}

theorem Ages.refl (ids : List Nat) (s : System) : Ages ids s s :=
  fun _ p hp => ⟨p, hp, .inl rfl⟩

theorem Ages.trans (h : Ages ids s t) (h' : Ages more t u) (hapart : ids.Disjoint more) :
    Ages (ids ++ more) s u := by
  intro j p hp
  obtain ⟨q, hq, hsame | ⟨hmem, holder⟩⟩ := h j p hp <;>
    obtain ⟨r, hr, hsame' | ⟨hmem', holder'⟩⟩ := h' j q hq <;> refine ⟨r, hr, ?_⟩
  · exact .inl (hsame'.trans hsame)
  · exact .inr ⟨List.mem_append_right _ hmem', holder'.trans (Process.rank_tick_congr hsame)⟩
  · exact .inr ⟨List.mem_append_left _ hmem, hsame'.trans holder⟩
  · exact absurd hmem' (hapart hmem)

theorem Ages.mono (h : Ages ids s t) (hsub : ids ⊆ more) : Ages more s t := by
  intro j p hp
  obtain ⟨q, hq, hrank⟩ := h j p hp
  exact ⟨q, hq, hrank.imp_right (And.imp_left (@hsub j))⟩

theorem Ages.rank_of_not_mem (h : Ages ids s t) (hj : j ∉ ids) (hp : s.process? j = some p) :
    ∃ q, t.process? j = some q ∧ q.rank = p.rank := by
  obtain ⟨q, hq, hrank⟩ := h j p hp
  exact ⟨q, hq, hrank.resolve_right fun hmem => hj hmem.1⟩

end System

namespace Kernel

variable {id index budget remaining : Nat} {ids rest : List Nat} {held : List (Nat × Nat)}
  {k : Kernel} {p : Process} {w : Worker}

theorem ages_ticked (id : Nat) (k : Kernel) : System.Ages [id] k.1 (ticked id k).1 := by
  intro j p hp
  refine ⟨_, System.process?_modify_of_eq_some hp, ?_⟩
  split
  · exact .inr ⟨List.mem_singleton.2 (by simp_all), rfl⟩
  · exact .inl rfl

theorem ages_tickedEach (hids : ids.Nodup) (k : Kernel) :
    System.Ages ids k.1 (tickedEach ids k).1 := by
  induction ids generalizing k with
  | nil => exact .refl [] k.1
  | cons id rest ih =>
    obtain ⟨hid, hrest⟩ := List.nodup_cons.1 hids
    exact (ages_ticked id k).trans (ih hrest (ticked id k)) (List.singleton_disjoint.2 hid)

theorem process?_tickedEach (hid : id ∉ ids) (k : Kernel) :
    (tickedEach ids k).1.process? id = k.1.process? id := by
  induction ids generalizing k with
  | nil => rfl
  | cons j rest ih =>
    obtain ⟨hne, hrest⟩ := not_or.1 (List.mem_cons.not.1 hid)
    refine (ih hrest (ticked j k)).trans ?_
    rw [ticked, System.process?_modifyProcess, if_neg (Ne.symm hne)]

theorem Reachable.ages_execute (hk : Reachable held k) (id budget : Nat) :
    System.Ages [id] k.1 (execute id budget k).2.1 := by
  rcases hk.housed.ready_or_idle hk.orderly id with ⟨p, image, context, hready⟩ | hidle
  · intro j q hq
    obtain ⟨r, hr, hage⟩ := ages_ticked id k j q hq
    obtain ⟨r', hr', hrank⟩ := (hready.reassigns hk.housed budget).records j r hr
    exact ⟨r', hr', hage.imp hrank.trans (And.imp_right hrank.trans)⟩
  · rw [execute_of_isIdle budget hidle]
    exact .refl [id] k.1

/-- Nobody grows older by more than a round when each is served once. -/
theorem Reachable.ages_serve (hk : Reachable held k) (hids : ids.Nodup) (budget remaining : Nat) :
    System.Ages ids k.1 (serve budget remaining ids k).2.1 := by
  induction ids generalizing remaining k with
  | nil => exact .refl [] k.1
  | cons id rest ih =>
    obtain ⟨hid, hrest⟩ := List.nodup_cons.1 hids
    have hapart : [id].Disjoint rest := List.singleton_disjoint.2 hid
    rw [serve_cons]
    split
    · exact .refl _ k.1
    · dsimp only
      split
      · exact (ages_ticked id k).trans (ih (hk.perform (.tick id) not_false) hrest _) hapart
      · exact (hk.ages_execute id _).trans
          (ih (hk.perform (.execute id _) not_false) hrest _) hapart

/-! ### One pass -/

/-- The first in the order runs or grows older. -/
theorem Reachable.serve_first (hk : Reachable held k) (hids : (id :: rest).Nodup)
    (hremaining : remaining ≠ 0) (hidle : ¬ k.1.isIdle id) (hp : k.1.process? id = some p) :
    ∃ q, (serve budget remaining (id :: rest) k).2.1.process? id = some q ∧
      q.rank = p.tick.rank := by
  obtain ⟨hid, hrest⟩ := List.nodup_cons.1 hids
  rw [serve_cons, if_neg hremaining]
  dsimp only
  split
  · have hk' : Reachable held (ticked id k) := hk.perform (.tick id) not_false
    exact (hk'.ages_serve hrest budget remaining).rank_of_not_mem hid (process?_ticked hp)
  · generalize min (share budget _) remaining = grant
    have hk' : Reachable held (execute id grant k).2 := hk.perform (.execute id grant) not_false
    obtain ⟨p', image, context, hready⟩ :=
      (hk.housed.ready_or_idle hk.orderly id).resolve_right hidle
    obtain ⟨q, hq, hrank⟩ := (hready.reassigns hk.housed grant).records id _ (process?_ticked hp)
    obtain ⟨r, hr, hsame⟩ :=
      (hk'.ages_serve hrest budget (remaining - grant)).rank_of_not_mem hid hq
    exact ⟨r, hr, hsame.trans hrank⟩

/-- A quantum that ended idle was none. -/
theorem Reachable.execute_of_ended_idle (hk : Reachable held k)
    (hended : (execute id budget k).1 = .idle) : (execute id budget k).2 = k := by
  rcases hk.housed.ready_or_idle hk.orderly id with ⟨p, image, context, hready⟩ | hidle
  · rw [hready.execute, runQuantum_eq] at hended
    exact absurd hended (quantumOfEnd_ne_idle _)
  · rw [execute_of_isIdle budget hidle]

/-- Who is passed over though it has a share does not grow older. -/
theorem Reachable.serve_passing (hk : Reachable held k) (hids : ids.Nodup)
    (hp : k.1.process? id = some p) (hshare : 1 ≤ share budget p.priority)
    (hpassed : ∀ x ∈ serveStints budget remaining ids k, x.process = id → x.ended = .idle) :
    ∃ q, (serve budget remaining ids k).2.1.process? id = some q ∧ q.rank = p.rank := by
  induction ids generalizing remaining k p with
  | nil => exact ⟨p, hp, rfl⟩
  | cons j rest ih =>
    obtain ⟨hj, hrest⟩ := List.nodup_cons.1 hids
    rw [serve_cons]
    rw [serveStints] at hpassed
    split
    · exact ⟨p, hp, rfl⟩
    · rename_i hremaining
      rw [if_neg hremaining] at hpassed
      dsimp only at hpassed ⊢
      by_cases heq : j = id
      · -- Its grant is not zero, so it is given a quantum, in which it does not run.
        subst heq
        have hgrant : min (share budget (((k.1.process? j).map (·.priority)).getD 0)) remaining
            ≠ 0 := by
          rw [hp, Option.map_some, Option.getD_some]
          omega
        rw [if_neg hgrant] at hpassed ⊢
        have hended := hpassed _ List.mem_cons_self rfl
        have hk' := hk.perform (.execute j (min (share budget
          (((k.1.process? j).map (·.priority)).getD 0)) remaining)) not_false
        have hsame := hk.execute_of_ended_idle hended
        refine (hk'.ages_serve hrest _ _).rank_of_not_mem hj ?_
        exact (congrArg (·.1.process? j) hsame).trans hp
      · have hne : id ∉ [j] := fun hmem => heq (List.mem_singleton.1 hmem).symm
        split
        · rw [if_pos ‹_›] at hpassed
          obtain ⟨q, hq, hrank⟩ := (ages_ticked j k).rank_of_not_mem hne hp
          obtain ⟨r, hr, hsame⟩ := ih (hk.perform (.tick j) not_false) hrest hq
            (hshare.trans_eq (congrArg (share budget ·.priority) hrank.symm)) hpassed
          exact ⟨r, hr, hsame.trans hrank⟩
        · rw [if_neg ‹_›] at hpassed
          obtain ⟨q, hq, hrank⟩ := (hk.ages_execute j _).rank_of_not_mem hne hp
          obtain ⟨r, hr, hsame⟩ := ih (hk.perform (.execute j _) not_false) hrest hq
            (hshare.trans_eq (congrArg (share budget ·.priority) hrank.symm))
            fun x hx => hpassed x (List.mem_cons_of_mem _ hx)
          exact ⟨r, hr, hsame.trans hrank⟩

/-- The rounds that a process is old. -/
def cycleOf (id : Nat) (k : Kernel) : Nat :=
  ((k.1.process? id).map (·.cycle)).getD 0

/-- The instructions that a worker has for a process. -/
def shareOf (index id : Nat) (k : Kernel) : Nat :=
  share ((k.1.workers[index]?.map (·.priority)).getD 0)
    (((k.1.process? id).map (·.priority)).getD 0)

/-- The worker owns the process, has at least one instruction for it, and there is something to run.
-/
structure Waits (index id : Nat) (k : Kernel) : Prop where
  owned : id ∈ ownedBy index k
  runnable : ¬ k.1.isIdle id
  share : 1 ≤ shareOf index id k

/-- The process does not run in the next pass of the worker. -/
def PassedOver (index id : Nat) (k : Kernel) : Prop :=
  ∀ x ∈ workerStints index k, x.process = id → x.ended = .idle

theorem mem_idleOf {w : Worker} : id ∈ idleOf w k ↔ id ∈ w.owned ∧ k.1.isIdle id := by
  rw [idleOf, List.partition_eq_filter_filter, List.mem_filter]

theorem exists_record (hidle : ¬ k.1.isIdle id) : ∃ p, k.1.process? id = some p := by
  cases hp : k.1.process? id with
  | none => simp [System.isIdle, hp] at hidle
  | some p => exact ⟨p, rfl⟩

/-- Those who have something to run are served. -/
theorem mem_orderOf (hs : k.1.Orderly ∅) :
    id ∈ orderOf w k ↔ id ∈ w.owned ∧ ¬ k.1.isIdle id := by
  rw [(orderOf_perm hs w).mem_iff, List.mem_filter, List.partition_eq_filter_filter,
    List.mem_filter, Function.comp_apply, Bool.not_eq_true']
  constructor
  · rintro ⟨⟨hmem, hidle⟩, -⟩
    exact ⟨hmem, by simp [hidle]⟩
  · rintro ⟨hmem, hidle⟩
    obtain ⟨p, hp⟩ := exists_record hidle
    refine ⟨⟨hmem, Bool.eq_false_iff.2 hidle⟩, ?_⟩
    rw [process?_tickedEach fun h => hidle (mem_idleOf.1 h).2, hp]
    rfl

theorem nodup_orderOf (hs : k.1.Orderly ∅) (hw : w.owned.Nodup) : (orderOf w k).Nodup := by
  rw [(orderOf_perm hs w).nodup_iff, List.partition_eq_filter_filter]
  exact (hw.filter _).filter _

theorem nodup_idleOf (hw : w.owned.Nodup) : (idleOf w k).Nodup := by
  rw [idleOf, List.partition_eq_filter_filter]
  exact hw.filter _

/-- Nobody grows older by more than a round in a pass of a worker, and only those it owns do. -/
theorem Reachable.ages_workerPass (hk : Reachable held k) (hw : k.1.workers[index]? = some w) :
    System.Ages w.owned k.1 (workerPass index k).2.1 := by
  have howned := nodup_owned hk.orderly hw
  have hapart : (idleOf w k).Disjoint (orderOf w k) := fun j hj hj' =>
    ((mem_orderOf hk.orderly).1 hj').2 (mem_idleOf.1 hj).2
  rw [workerPass_eq hw]
  refine ((ages_tickedEach (nodup_idleOf howned) k).trans ((hk.tickedEach _).ages_serve
    (nodup_orderOf hk.orderly howned) _ _) hapart).mono fun j hj => ?_
  rcases List.mem_append.1 hj with hj | hj
  · exact (mem_idleOf.1 hj).1
  · exact ((mem_orderOf hk.orderly).1 hj).1

theorem cycleOf_eq {k' : Kernel} {q : Process} (hp : k.1.process? id = some p)
    (hq : k'.1.process? id = some q) :
    (q.rank = p.rank → cycleOf id k' = cycleOf id k) ∧
      (q.rank = p.tick.rank → cycleOf id k' = (cycleOf id k + 1) % cycleLimit) := by
  rw [cycleOf, cycleOf, hp, hq]
  exact ⟨congrArg Rank.cycle, congrArg Rank.cycle⟩

/-- In a pass no process grows younger while no counter starts again. -/
theorem Reachable.cycleOf_le (hk : Reachable held k)
    (hclear : ∀ j ∈ ownedBy index k, cycleOf j k + 1 < cycleLimit) (id : Nat) :
    cycleOf id k ≤ cycleOf id (workerPass index k).2 := by
  cases hp : k.1.process? id with
  | none => simp [cycleOf, hp]
  | some p =>
    cases hw : k.1.workers[index]? with
    | none => rw [workerPass_of_none hw]
    | some w =>
      obtain ⟨q, hq, hsame | ⟨hmem, holder⟩⟩ := hk.ages_workerPass hw id p hp
      · exact ((cycleOf_eq hp hq).1 hsame).ge
      · rw [ownedBy, hw] at hclear
        rw [(cycleOf_eq hp hq).2 holder, Nat.mod_eq_of_lt (hclear id hmem)]
        exact Nat.le_succ _

theorem Waits.exists_worker (h : Waits index id k) :
    ∃ w p, k.1.workers[index]? = some w ∧ ownedBy index k = w.owned ∧
      k.1.process? id = some p ∧ 1 ≤ Kernel.share w.priority p.priority := by
  obtain ⟨p, hp⟩ := exists_record h.runnable
  have hid := h.owned
  have hshare := h.share
  rw [ownedBy] at hid
  cases hw : k.1.workers[index]? with
  | none => simp [hw] at hid
  | some w =>
    rw [shareOf, hw, hp] at hshare
    exact ⟨w, p, rfl, by rw [ownedBy, hw]; rfl, hp, hshare⟩

/-- Who is passed over does not grow older. -/
theorem Waits.cycleOf_self (h : Waits index id k) (hk : Reachable held k)
    (hpassed : PassedOver index id k) : cycleOf id (workerPass index k).2 = cycleOf id k := by
  obtain ⟨w, p, hw, hown, hp, hshare⟩ := h.exists_worker
  have howned := nodup_owned hk.orderly hw
  have hticked := process?_tickedEach (fun hmem => h.runnable (mem_idleOf (w := w).1 hmem).2) k
  rw [PassedOver, workerStints_eq hw] at hpassed
  obtain ⟨q, hq, hrank⟩ := (hk.tickedEach _).serve_passing (nodup_orderOf hk.orderly howned)
    (hticked.trans hp) hshare hpassed
  rw [← workerPass_eq hw] at hq
  exact (cycleOf_eq hp hq).1 hrank

theorem length_runnable_le (w : Worker) (k : Kernel) :
    (w.owned.partition k.1.isIdle).2.length ≤ w.owned.length := by
  rw [List.partition_eq_filter_filter]
  exact List.length_filter_le _ _

/-- When there is somebody to serve, the first in the order is not too far ahead of anyone, and
grows older. -/
theorem Reachable.exists_first (hk : Reachable held k) (hw : k.1.workers[index]? = some w)
    (hpriority : w.priority ≠ 0) (hmem : id ∈ w.owned) (hidle : ¬ k.1.isIdle id) :
    ∃ first ∈ w.owned,
      cycleOf first k ≤ cycleOf id k + starvationGap * (w.owned.length - 1) ∧
      cycleOf first (workerPass index k).2 = (cycleOf first k + 1) % cycleLimit := by
  have hk' := hk.tickedEach (idleOf w k)
  have hticked {j : Nat} (hidle : ¬ k.1.isIdle j) :
      (Kernel.tickedEach (idleOf w k) k).1.process? j = k.1.process? j :=
    process?_tickedEach (fun hmem => hidle (mem_idleOf.1 hmem).2) k
  obtain ⟨p, hp⟩ := exists_record hidle
  have hid : id ∈ orderOf w k := (mem_orderOf hk.orderly).2 ⟨hmem, hidle⟩
  have hnodup := nodup_orderOf hk.orderly (nodup_owned hk.orderly hw)
  cases horder : orderOf w k with
  | nil => simp [horder] at hid
  | cons first others =>
    rw [horder] at hnodup
    obtain ⟨hfirst, hidle'⟩ := (mem_orderOf hk.orderly).1 (horder ▸ List.mem_cons_self)
    have hrunnable : id ∈ (w.owned.partition k.1.isIdle).2 := by
      rw [List.partition_eq_filter_filter]
      exact List.mem_filter.2 ⟨hmem, by simpa using hidle⟩
    obtain ⟨q, hq, hcycle⟩ := hk'.orderly.cycle_first_le horder hrunnable
      ((hticked hidle).trans hp)
    have hticks : ¬ (Kernel.tickedEach (idleOf w k) k).1.isIdle first := by
      rwa [System.isIdle, hticked hidle']
    obtain ⟨r, hr, holder⟩ := hk'.serve_first hnodup hpriority hticks hq
    rw [hticked hidle'] at hq
    rw [← horder, ← workerPass_eq hw] at hr
    have hahead : starvationGap * ((w.owned.partition k.1.isIdle).2.length - 1) ≤
        starvationGap * (w.owned.length - 1) :=
      Nat.mul_le_mul_left _ (Nat.sub_le_sub_right (length_runnable_le w k) 1)
    refine ⟨first, hfirst, ?_, (cycleOf_eq hq hr).2 holder⟩
    rw [cycleOf, cycleOf, hp, hq]
    exact hcycle.trans (Nat.add_le_add_left hahead _)

/-- Who is passed over is not the first. -/
theorem Waits.exists_first (h : Waits index id k) (hk : Reachable held k)
    (hpassed : PassedOver index id k)
    (hclear : ∀ j ∈ ownedBy index k, cycleOf j k + 1 < cycleLimit) :
    ∃ first ∈ ownedBy index k, first ≠ id ∧
      cycleOf first k ≤ cycleOf id k + starvationGap * ((ownedBy index k).length - 1) ∧
      cycleOf first (workerPass index k).2 = cycleOf first k + 1 := by
  obtain ⟨w, p, hw, hown, hp, hshare⟩ := h.exists_worker
  rw [hown] at hclear ⊢
  have hpriority : w.priority ≠ 0 := by
    intro hzero
    simp [hzero, Kernel.share] at hshare
  obtain ⟨first, hfirst, hahead, holder⟩ :=
    hk.exists_first hw hpriority (hown ▸ h.owned) h.runnable
  rw [Nat.mod_eq_of_lt (hclear first hfirst)] at holder
  refine ⟨first, hfirst, ?_, hahead, holder⟩
  rintro rfl
  rw [h.cycleOf_self hk hpassed] at holder
  omega

/-! ### One pass after the other -/

/-- The kernel after so many passes of a worker. -/
def afterPasses (index passes : Nat) (k : Kernel) : Kernel :=
  (fun k => (workerPass index k).2)^[passes] k

/-- The rounds that some processes may still grow older by until all of them reach an age. -/
def roundsTo (age : Nat) (ids : List Nat) (k : Kernel) : Nat :=
  (ids.map fun j => age - cycleOf j k).sum

/-- The passes that a process may have to wait. As long as another one of the worker is ahead of it
by no more than the gap for each of the others, that one may be first. -/
def patience (index id : Nat) (k : Kernel) : Nat :=
  roundsTo (cycleOf id k + starvationGap * ((ownedBy index k).length - 1) + 1)
    ((ownedBy index k).erase id) k

instance (index id : Nat) (k : Kernel) : Decidable (Waits index id k) :=
  decidable_of_iff (id ∈ ownedBy index k ∧ ¬ k.1.isIdle id ∧ 1 ≤ shareOf index id k)
    ⟨fun h => ⟨h.1, h.2.1, h.2.2⟩, fun h => ⟨h.owned, h.runnable, h.share⟩⟩

instance (index id : Nat) (k : Kernel) : Decidable (PassedOver index id k) :=
  inferInstanceAs (Decidable (∀ x ∈ _, _ → _))

/-- With each pass that passes the process over, one of the others uses up a round. -/
theorem Waits.roundsTo_lt (h : Waits index id k) (hk : Reachable held k)
    (hpassed : PassedOver index id k)
    (hclear : ∀ j ∈ ownedBy index k, cycleOf j k + 1 < cycleLimit) {age : Nat}
    (hage : cycleOf id k + starvationGap * ((ownedBy index k).length - 1) < age)
    (hids : ∀ j ∈ ownedBy index k, j ≠ id → j ∈ ids) :
    roundsTo age ids (workerPass index k).2 < roundsTo age ids k := by
  obtain ⟨first, hfirst, hne, hahead, holder⟩ := h.exists_first hk hpassed hclear
  refine List.sum_lt_sum _ _ (fun j _ => Nat.sub_le_sub_left (hk.cycleOf_le hclear j) age)
    ⟨first, hids first hfirst hne, ?_⟩
  omega

theorem afterPasses_succ (index passes : Nat) (k : Kernel) :
    afterPasses index (passes + 1) k = (workerPass index (afterPasses index passes k)).2 :=
  Function.iterate_succ_apply' _ passes k

theorem Reachable.afterPasses (hk : Reachable held k) (index passes : Nat) :
    Reachable held (Kernel.afterPasses index passes k) := by
  induction passes with
  | zero => exact hk
  | succ passes ih =>
    rw [afterPasses_succ]
    exact ih.perform (.workerPass index) not_false

/-- No starvation: a process that its worker passes over again and again, though it could run each
time and the worker has got nobody new, has been passed over for no more passes than its patience.
-/
theorem passes_le_patience (hk : Reachable held k) (index id passes : Nat)
    (hwaits : ∀ i < passes, Waits index id (afterPasses index i k))
    (hkept : ∀ i < passes, ownedBy index (afterPasses index i k) ⊆ ownedBy index k)
    (hclear : ∀ i < passes, ∀ j ∈ ownedBy index (afterPasses index i k),
      cycleOf j (afterPasses index i k) + 1 < cycleLimit)
    (hpassed : ∀ i < passes, PassedOver index id (afterPasses index i k)) :
    passes ≤ patience index id k := by
  rw [patience]
  generalize hage : cycleOf id k + starvationGap * ((ownedBy index k).length - 1) + 1 = age
  have hrun : ∀ i ≤ passes, cycleOf id (afterPasses index i k) = cycleOf id k ∧
      roundsTo age ((ownedBy index k).erase id) (afterPasses index i k) + i ≤
        roundsTo age ((ownedBy index k).erase id) k := by
    intro i hi
    induction i with
    | zero => exact ⟨rfl, Nat.le_refl _⟩
    | succ i ih =>
      obtain ⟨hsame, hless⟩ := ih (Nat.le_of_succ_le hi)
      have hi' := hk.afterPasses index i
      rw [afterPasses_succ]
      refine ⟨((hwaits i hi).cycleOf_self hi' (hpassed i hi)).trans hsame, ?_⟩
      -- The worker has no more processes than it had.
      have hnodup : (ownedBy index (afterPasses index i k)).Nodup := by
        simpa using nodup_ownedBy hi'.orderly (List.nodup_singleton index)
      have hlength := (List.subperm_of_subset hnodup (hkept i hi)).length_le
      have hgap := Nat.mul_le_mul_left starvationGap (Nat.sub_le_sub_right hlength 1)
      have hdrop := (hwaits i hi).roundsTo_lt hi' (hpassed i hi) (hclear i hi)
        (show _ < age by omega) fun j hj hne => (List.mem_erase_of_ne hne).2 (hkept i hi hj)
      omega
  exact (Nat.le_add_left _ _).trans (hrun passes (Nat.le_refl _)).2

/-! ### A process that waits as long as it can -/

/-- Processes 0 and 1 have the same weight and enough to do, and their worker has one instruction a
pass. -/
def queueKernel : Kernel :=
  performAll pairKernel [.generate none, .generate none,
    .bindProgram 0 ((List.replicate 24 [0, 0, 0, 0, 7]).flatten), .bindProgram 1 [0, 0, 0, 0, 7],
    .setPriority 0 100, .setPriority 1 100, .sleepWorker 1, .dispatch 0, .dispatch 1,
    .setWorkerPriority 0 1]

theorem reachable_queueKernel : Reachable [] queueKernel := by
  have hcreate : Kernel.create pairSettings = .ok pairKernel := rfl
  apply (Reachable.create hcreate).performAll
  simp [Op.IsBindImage]

/-- Process 1 is passed over 21 times, until process 0 is too far ahead. -/
theorem patience_in_queue :
    (∀ i < 21, Waits 0 1 (afterPasses 0 i queueKernel)) ∧
      (∀ i < 21, PassedOver 0 1 (afterPasses 0 i queueKernel)) ∧
      21 ≤ patience 0 1 queueKernel ∧ patience 0 1 queueKernel = 21 := by
  have hwaits : ∀ i < 21, Waits 0 1 (afterPasses 0 i queueKernel) := by decide +kernel
  have hpassed : ∀ i < 21, PassedOver 0 1 (afterPasses 0 i queueKernel) := by decide +kernel
  refine ⟨hwaits, hpassed, ?_, by decide +kernel⟩
  exact passes_le_patience reachable_queueKernel 0 1 21 hwaits (by decide +kernel)
    (by decide +kernel) hpassed

end Kernel

end BytecodeKernel
