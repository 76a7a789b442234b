import BytecodeKernel.Proofs.Kernel.Containment
import BytecodeKernel.Proofs.Kernel.Waiting
import Mathlib.Data.List.TakeWhile
/-!
What a pass of a worker gives to whom. The worker serves its processes in their order, and each
takes its share of what the ones before it have left, whether they used it or not. So the quanta of
a pass can be told from the shares alone, but for what the programs do in them. Everybody grows
older by a round, except for those that nothing is left for, and for those that would have had a
quantum but were halted in that of another one.
-/

namespace BytecodeKernel

/-- The quantum halts the process and all below it. -/
def Quantum.EndsSubtree : Quantum → Prop
  | .halted recursive => recursive = true
  | .faulted _ => True
  | .idle | .yielded | .finished => False

theorem Quantum.endsSubtree_of_removes {quantum : Quantum} {s t : System} {id j : Nat}
    (h : quantum.Removes s t id j) (hne : j ≠ id) : quantum.EndsSubtree := by
  cases quantum with
  | idle | yielded | finished => exact h
  | faulted fault => trivial
  | halted recursive =>
    cases recursive with
    | true => rfl
    | false => exact absurd h hne

namespace Kernel

variable {id j budget remaining : Nat} {ids before after rest : List Nat}
  {held : List (Nat × Nat)} {k k' : Kernel} {p : Process} {w : Worker} {x : Stint}

/-! ### One after the other -/

/-- The instructions of a budget that a process may have. -/
def shareIn (budget : Nat) (k : Kernel) (id : Nat) : Nat :=
  share budget (((k.1.process? id).map (·.priority)).getD 0)

/-- What remains once those on the list have had their shares. -/
def remainder (budget remaining : Nat) (ids : List Nat) (k : Kernel) : Nat :=
  remaining - (ids.map (shareIn budget k)).sum

/-- The kernel once a process has been served. -/
def serveOne (budget remaining id : Nat) (k : Kernel) : Kernel :=
  if remaining = 0 then k
  else if min (shareIn budget k id) remaining = 0 then ticked id k
  else (execute id (min (shareIn budget k id) remaining) k).2

theorem remainder_cons (budget remaining id : Nat) (ids : List Nat) (k : Kernel) :
    remainder budget remaining (id :: ids) k =
      remainder budget (remaining - shareIn budget k id) ids k := by
  rw [remainder, remainder, List.map_cons, List.sum_cons, Nat.sub_sub]

theorem remainder_congr (h : ∀ j ∈ ids, shareIn budget k' j = shareIn budget k j)
    (remaining : Nat) : remainder budget remaining ids k' = remainder budget remaining ids k := by
  rw [remainder, remainder, List.map_congr_left h]

theorem serve_zero (budget : Nat) (ids : List Nat) (k : Kernel) :
    (serve budget 0 ids k).2 = k := by
  cases ids with
  | nil => rfl
  | cons id rest => rw [serve_cons, if_pos rfl]

theorem serveStints_zero (budget : Nat) (ids : List Nat) (k : Kernel) :
    serveStints budget 0 ids k = [] := by
  cases ids with
  | nil => rfl
  | cons id rest => rw [serveStints, if_pos rfl]

/-- The others are served from what the first has left. -/
theorem serve_cons_eq (budget remaining id : Nat) (rest : List Nat) (k : Kernel) :
    (serve budget remaining (id :: rest) k).2 =
      (serve budget (remaining - shareIn budget k id) rest
        (serveOne budget remaining id k)).2 := by
  by_cases hremaining : remaining = 0
  · rw [hremaining, Nat.zero_sub, serve_zero, serve_zero, serveOne, if_pos rfl]
  · rw [serve_cons, serveOne, if_neg hremaining, if_neg hremaining, ← shareIn]
    dsimp only
    split
    · rw [show remaining - shareIn budget k id = remaining by omega]
    · rw [show remaining - min (shareIn budget k id) remaining =
        remaining - shareIn budget k id by omega]

theorem serveStints_cons (budget remaining id : Nat) (rest : List Nat) (k : Kernel) :
    serveStints budget remaining (id :: rest) k =
      (if min (shareIn budget k id) remaining = 0 then []
        else [stint id (min (shareIn budget k id) remaining) k]) ++
      serveStints budget (remaining - shareIn budget k id) rest
        (serveOne budget remaining id k) := by
  by_cases hremaining : remaining = 0
  · rw [hremaining, Nat.zero_sub, serveStints_zero, serveStints_zero, Nat.min_zero, if_pos rfl]
    rfl
  · rw [serveStints, serveOne, if_neg hremaining, if_neg hremaining, ← shareIn]
    dsimp only
    split
    · rw [show remaining - shareIn budget k id = remaining by omega]
      rfl
    · rw [show remaining - min (shareIn budget k id) remaining =
        remaining - shareIn budget k id by omega]
      rfl

theorem Reachable.serveOne (hk : Reachable held k) (budget remaining id : Nat) :
    Reachable held (Kernel.serveOne budget remaining id k) := by
  rw [Kernel.serveOne]
  split
  · exact hk
  · split
    · exact hk.perform (.tick id) not_false
    · exact hk.perform (.execute id _) not_false

theorem Reachable.serve (hk : Reachable held k) (budget remaining : Nat) (ids : List Nat) :
    Reachable held (Kernel.serve budget remaining ids k).2 := by
  induction ids generalizing remaining k with
  | nil => exact hk
  | cons id rest ih =>
    rw [serve_cons_eq]
    exact ih (hk.serveOne budget remaining id) _

theorem Reachable.ages_serveOne (hk : Reachable held k) (budget remaining id : Nat) :
    System.Ages [id] k.1 (Kernel.serveOne budget remaining id k).1 := by
  rw [Kernel.serveOne]
  split
  · exact .refl _ k.1
  · split
    · exact ages_ticked id k
    · exact hk.ages_execute id _

theorem isSome_of_ages (h : System.Ages ids k.1 k'.1) (hj : (k.1.process? j).isSome) :
    (k'.1.process? j).isSome := by
  obtain ⟨p, hp⟩ := Option.isSome_iff_exists.1 hj
  obtain ⟨q, hq, -⟩ := h j p hp
  exact hq ▸ rfl

/-- Weights stay. -/
theorem shareIn_of_ages (h : System.Ages ids k.1 k'.1) (hj : (k.1.process? j).isSome)
    (budget : Nat) : Kernel.shareIn budget k' j = Kernel.shareIn budget k j := by
  obtain ⟨p, hp⟩ := Option.isSome_iff_exists.1 hj
  obtain ⟨q, hq, hrank⟩ := h j p hp
  have hpriority : q.priority = p.priority := by
    rcases hrank with hrank | ⟨-, hrank⟩ <;> exact congrArg Rank.priority hrank
  rw [Kernel.shareIn, Kernel.shareIn, hp, hq, Option.map_some, Option.map_some, hpriority]

/-- Those on the rest of the list are served when those in front of them have been. -/
theorem Reachable.serve_append (hk : Reachable held k)
    (hrecords : ∀ j ∈ before, (k.1.process? j).isSome) (remaining : Nat) (rest : List Nat) :
    (Kernel.serve budget remaining (before ++ rest) k).2 =
      (Kernel.serve budget (remainder budget remaining before k) rest
        (Kernel.serve budget remaining before k).2).2 := by
  induction before generalizing remaining k with
  | nil => rfl
  | cons id before ih =>
    have hages := hk.ages_serveOne budget remaining id
    have hbefore := fun j hj => hrecords j (List.mem_cons_of_mem id hj)
    rw [List.cons_append, serve_cons_eq, serve_cons_eq, remainder_cons,
      ih (hk.serveOne budget remaining id) (fun j hj => isSome_of_ages hages (hbefore j hj)),
      remainder_congr fun j hj => shareIn_of_ages hages (hbefore j hj) budget]

/-! ### Who grows older -/

theorem Reachable.rank_serveOne (hk : Reachable held k) (budget remaining : Nat)
    (hp : k.1.process? id = some p) :
    ∃ q, (Kernel.serveOne budget remaining id k).1.process? id = some q ∧
      q.rank = if remaining = 0 ∨ 0 < shareIn budget k id ∧ k.1.isIdle id then p.rank
        else p.tick.rank := by
  rw [Kernel.serveOne]
  by_cases hremaining : remaining = 0
  · rw [if_pos hremaining, if_pos (.inl hremaining)]
    exact ⟨p, hp, rfl⟩
  · rw [if_neg hremaining]
    by_cases hgrant : min (shareIn budget k id) remaining = 0
    · rw [if_pos hgrant, if_neg (by omega)]
      exact ⟨p.tick, process?_ticked hp, rfl⟩
    · rw [if_neg hgrant]
      by_cases hidle : k.1.isIdle id
      · rw [execute_of_isIdle _ hidle, if_pos (.inr ⟨by omega, hidle⟩)]
        exact ⟨p, hp, rfl⟩
      · obtain ⟨p', image, context, hready⟩ :=
          (hk.housed.ready_or_idle hk.orderly id).resolve_right hidle
        rw [if_neg (by tauto)]
        exact (hready.reassigns hk.housed _).records id _ (process?_ticked hp)

/-- Whether a process has grown older when all have been served is decided when its turn comes. -/
theorem Reachable.rank_serve (hk : Reachable held k) (budget remaining : Nat)
    (hids : (before ++ id :: after).Nodup)
    (hrecords : ∀ j ∈ before, (k.1.process? j).isSome) (hp : k.1.process? id = some p) :
    ∃ q, (Kernel.serve budget remaining (before ++ id :: after) k).2.1.process? id = some q ∧
      q.rank = if remainder budget remaining before k = 0 ∨ 0 < shareIn budget k id ∧
        (Kernel.serve budget remaining before k).2.1.isIdle id then p.rank else p.tick.rank := by
  obtain ⟨hbefore, hafter, hapart⟩ := List.nodup_append'.1 hids
  obtain ⟨hid, hafter⟩ := List.nodup_cons.1 hafter
  have hnow := hk.serve budget remaining before
  have hages := hk.ages_serve hbefore budget remaining
  have hshare := shareIn_of_ages hages (j := id) (hp ▸ rfl) budget
  obtain ⟨p', hp', hrank⟩ := hages.rank_of_not_mem
    (fun hmem => hapart hmem List.mem_cons_self) hp
  obtain ⟨q, hq, holder⟩ := hnow.rank_serveOne budget
    (remainder budget remaining before k) hp'
  obtain ⟨r, hr, hsame⟩ := ((hnow.serveOne budget _ id).ages_serve hafter budget
    (remainder budget remaining before k - shareIn budget k id)).rank_of_not_mem hid hq
  rw [hk.serve_append hrecords, serve_cons_eq, hshare]
  refine ⟨r, hr, hsame.trans (holder.trans ?_)⟩
  rw [hshare, hrank, Process.rank_tick_congr hrank]

theorem process?_tickedEach_of_mem (hids : ids.Nodup) (hid : id ∈ ids)
    (hp : k.1.process? id = some p) : (tickedEach ids k).1.process? id = some p.tick := by
  induction ids generalizing k with
  | nil => exact absurd hid List.not_mem_nil
  | cons j rest ih =>
    obtain ⟨hj, hrest⟩ := List.nodup_cons.1 hids
    rcases List.mem_cons.1 hid with rfl | hid
    · exact (process?_tickedEach hj (ticked id k)).trans (process?_ticked hp)
    · have hne : id ≠ j := fun heq => hj (heq ▸ hid)
      exact ih hrest hid ((process?_ticked_of_ne hne).trans hp)

/-! ### What each is granted -/

/-- Those on the list in front of a process. -/
def ahead (ids : List Nat) (id : Nat) : List Nat :=
  ids.takeWhile (· ≠ id)

theorem ahead_append (h : id ∉ before) : ahead (before ++ id :: after) id = before := by
  have hbefore : ∀ j ∈ before, decide (j ≠ id) = true := fun j hj =>
    decide_eq_true fun heq => h (heq ▸ hj)
  rw [ahead, List.takeWhile_append_of_pos hbefore, List.takeWhile_cons_of_neg (by simp),
    List.append_nil]

theorem exists_ahead (h : id ∈ ids) : ∃ after, ids = ahead ids id ++ id :: after := by
  obtain ⟨before, after, heq, hid⟩ := List.eq_append_cons_of_mem h
  refine ⟨after, ?_⟩
  rw [heq, ahead_append hid]

theorem ahead_cons_self (id : Nat) (ids : List Nat) : ahead (id :: ids) id = [] :=
  ahead_append List.not_mem_nil

theorem ahead_cons_of_ne (h : id ≠ j) : ahead (id :: ids) j = id :: ahead ids j :=
  List.takeWhile_cons_of_pos (decide_eq_true h)

theorem ahead_subset (ids : List Nat) (id : Nat) : ahead ids id ⊆ ids :=
  List.takeWhile_subset _

theorem not_mem_ahead (ids : List Nat) (id : Nat) : id ∉ ahead ids id := by
  intro hmem
  simpa using List.mem_takeWhile_imp hmem

/-- What a process is granted when its turn comes. -/
def grantIn (budget remaining : Nat) (ids : List Nat) (k : Kernel) (id : Nat) : Nat :=
  min (shareIn budget k id) (remainder budget remaining (ahead ids id) k)

theorem grantIn_cons_self (budget remaining id : Nat) (rest : List Nat) (k : Kernel) :
    grantIn budget remaining (id :: rest) k id = min (shareIn budget k id) remaining := by
  rw [grantIn, ahead_cons_self]
  rfl

theorem Reachable.grantIn_cons (hk : Reachable held k) (hne : id ≠ j)
    (hrecords : ∀ i ∈ rest, (k.1.process? i).isSome) (hj : j ∈ rest) (budget remaining : Nat) :
    grantIn budget remaining (id :: rest) k j =
      grantIn budget (remaining - shareIn budget k id) rest
        (Kernel.serveOne budget remaining id k) j := by
  have hages := hk.ages_serveOne budget remaining id
  have hahead : ∀ i ∈ ahead rest j,
      shareIn budget (Kernel.serveOne budget remaining id k) i = shareIn budget k i :=
    fun i hi => shareIn_of_ages hages (hrecords i (ahead_subset rest j hi)) budget
  rw [grantIn, grantIn, ahead_cons_of_ne hne, remainder_cons, remainder_congr hahead,
    shareIn_of_ages hages (hrecords j hj)]

/-- Each in its turn has what it is granted, if that is anything. -/
theorem Reachable.serveStints_eq (hk : Reachable held k) (hids : ids.Nodup)
    (hrecords : ∀ j ∈ ids, (k.1.process? j).isSome) (remaining : Nat) :
    serveStints budget remaining ids k =
      (ids.filter fun id => grantIn budget remaining ids k id ≠ 0).map fun id =>
        stint id (grantIn budget remaining ids k id)
          (Kernel.serve budget remaining (ahead ids id) k).2 := by
  induction ids generalizing remaining k with
  | nil => rfl
  | cons id rest ih =>
    obtain ⟨hid, hrest⟩ := List.nodup_cons.1 hids
    have hne : ∀ j ∈ rest, id ≠ j := fun j hj heq => hid (heq ▸ hj)
    have hlater := fun j hj => hrecords j (List.mem_cons_of_mem id hj)
    have hgrant := fun j hj => hk.grantIn_cons (hne j hj) hlater hj budget remaining
    have hkept := fun j hj => isSome_of_ages (hk.ages_serveOne budget remaining id) (hlater j hj)
    have hothers : (rest.filter fun j => grantIn budget remaining (id :: rest) k j ≠ 0).map
        (fun j => stint j (grantIn budget remaining (id :: rest) k j)
          (Kernel.serve budget remaining (ahead (id :: rest) j) k).2) =
        serveStints budget (remaining - shareIn budget k id) rest
          (Kernel.serveOne budget remaining id k) := by
      rw [ih (hk.serveOne budget remaining id) hrest hkept,
        List.filter_congr fun j hj => by rw [hgrant j hj]]
      refine List.map_congr_left fun j hj => ?_
      have hmem := List.mem_of_mem_filter hj
      rw [hgrant j hmem, ahead_cons_of_ne (hne j hmem), serve_cons_eq]
    rw [serveStints_cons, List.filter_cons, ← hothers, grantIn_cons_self]
    by_cases hnone : min (shareIn budget k id) remaining = 0
    · rw [if_pos hnone, if_neg (by simp [hnone]), List.nil_append]
    · rw [if_neg hnone, if_pos (by simp [hnone]), List.map_cons, grantIn_cons_self,
        ahead_cons_self]
      rfl

/-- Altogether no more is carried out than there was. -/
theorem sum_spent_serveStints_le (budget remaining : Nat) (ids : List Nat) (k : Kernel) :
    ((serveStints budget remaining ids k).map (·.spent)).sum ≤ remaining := by
  induction ids generalizing remaining k with
  | nil => exact Nat.zero_le _
  | cons id rest ih =>
    have hlater := ih (remaining - shareIn budget k id) (serveOne budget remaining id k)
    have hspent := spent_stint_le id (min (shareIn budget k id) remaining) k
    rw [serveStints_cons, List.map_append, List.sum_append]
    split
    · exact (Nat.zero_add _).trans_le (hlater.trans (Nat.sub_le _ _))
    · rw [List.map_singleton, List.sum_singleton]
      omega

/-! ### Who is halted by another one -/

/-- In the quantum of another process, one that has something to run keeps that or is halted. -/
theorem Reachable.runnable_or_gone_execute (hk : Reachable held k) (hne : id ≠ j)
    (hidle : ¬ k.1.isIdle id) (budget : Nat) :
    ¬ (execute j budget k).2.1.isIdle id ∨
      Gone id (execute j budget k).2 ∧ (execute j budget k).1.EndsSubtree := by
  have hcontained := hk.housed.contained_execute hk.orderly j budget
  by_cases hremoved : (execute j budget k).1.Removes k.1 (execute j budget k).2.1 j id
  · exact .inr ⟨(hcontained.removed id hremoved).2, Quantum.endsSubtree_of_removes hremoved hne⟩
  · obtain ⟨p, image, context, hready⟩ :=
      (hk.housed.ready_or_idle hk.orderly id).resolve_right hidle
    obtain ⟨q, hq, hstays, -⟩ := (hcontained.untouched id hne
      (hready.isRegistered hk.orderly) hremoved).record p hready.record
    have himage : q.image = some image :=
      (hstays.image (hready.image ▸ Option.some_ne_none image)).trans hready.image
    left
    simp [System.isIdle, hq, Process.isIdle, Process.isBound, himage,
      hstays.active.trans hready.active]

theorem Reachable.follows_serveOne (hk : Reachable held k) (budget remaining id : Nat) :
    k.1.Follows (Kernel.serveOne budget remaining id k).1 := by
  have hbegin : Tracks ∅ k.1 k := ⟨hk.orderly, .refl _⟩
  rw [Kernel.serveOne]
  split
  · exact .refl _
  · split
    · exact (hbegin.perform (.tick id)).follows
    · exact (hbegin.perform (.execute id _)).follows

theorem Reachable.follows_serve (hk : Reachable held k) (budget remaining : Nat)
    (ids : List Nat) : k.1.Follows (Kernel.serve budget remaining ids k).2.1 := by
  induction ids generalizing remaining k with
  | nil => exact .refl _
  | cons id rest ih =>
    rw [serve_cons_eq]
    exact (hk.follows_serveOne budget remaining id).trans
      (ih (hk.serveOne budget remaining id) _)

/-- While others are served, one that has something to run keeps that or is halted by one of them.
-/
theorem Reachable.runnable_or_gone_serve (hk : Reachable held k) (hid : id ∉ ids)
    (hidle : ¬ k.1.isIdle id) (budget remaining : Nat) :
    ¬ (Kernel.serve budget remaining ids k).2.1.isIdle id ∨
      Gone id (Kernel.serve budget remaining ids k).2 ∧
        ∃ x ∈ serveStints budget remaining ids k, x.ended.EndsSubtree := by
  induction ids generalizing remaining k with
  | nil => exact .inl hidle
  | cons j rest ih =>
    obtain ⟨hne, hrest⟩ := not_or.1 (List.mem_cons.not.1 hid)
    have hnext := hk.serveOne budget remaining j
    rw [serve_cons_eq, serveStints_cons]
    -- The first one leaves it as it was, or halts it for good.
    have hfirst : ¬ (Kernel.serveOne budget remaining j k).1.isIdle id ∨
        Gone id (Kernel.serveOne budget remaining j k) ∧
          min (shareIn budget k j) remaining ≠ 0 ∧
            (execute j (min (shareIn budget k j) remaining) k).1.EndsSubtree := by
      rw [Kernel.serveOne]
      split
      · exact .inl hidle
      · split
        · left
          rwa [System.isIdle, process?_ticked_of_ne hne]
        · rename_i hgrant
          rcases hk.runnable_or_gone_execute hne hidle _ with hrunnable | ⟨hgone, hends⟩
          · exact .inl hrunnable
          · exact .inr ⟨hgone, hgrant, hends⟩
    rcases hfirst with hrunnable | ⟨hgone, hgrant, hends⟩
    · rcases ih hnext hrest hrunnable _ with hrunnable | ⟨hgone, x, hx, hends⟩
      · exact .inl hrunnable
      · exact .inr ⟨hgone, x, List.mem_append_right _ hx, hends⟩
    · refine .inr ⟨hgone.follows (hnext.follows_serve budget _ rest),
        stint j (min (shareIn budget k j) remaining) k, ?_, hends⟩
      rw [if_neg hgrant]
      exact List.mem_append_left _ List.mem_cons_self

/-! ### One pass of a worker -/

/-- What is left of the worker's budget when it is a process's turn. -/
def leftFor (w : Worker) (k : Kernel) (id : Nat) : Nat :=
  remainder w.priority w.priority (ahead (orderOf w k) id) k

def grantFor (w : Worker) (k : Kernel) (id : Nat) : Nat :=
  min (shareIn w.priority k id) (leftFor w k id)

/-- The kernel when it is a process's turn. -/
def turnOf (w : Worker) (k : Kernel) (id : Nat) : Kernel :=
  (serve w.priority w.priority (ahead (orderOf w k) id) (tickedEach (idleOf w k) k)).2

/-- There is something to run, but nothing is left for it, or it would have a quantum and has been
halted since the pass began. -/
def Stalls (w : Worker) (k : Kernel) (id : Nat) : Prop :=
  ¬ k.1.isIdle id ∧
    (leftFor w k id = 0 ∨ 0 < shareIn w.priority k id ∧ Gone id (turnOf w k id))

instance (id : Nat) (k : Kernel) : Decidable (Gone id k) :=
  decidable_of_iff ((k.1.process? id).any (·.halted) = true) (Option.any_eq_true ..)

instance (w : Worker) (k : Kernel) (id : Nat) : Decidable (Stalls w k id) :=
  inferInstanceAs (Decidable (_ ∧ _))

/-- The order is that of the processes with something to run as they are when the pass begins. -/
theorem orderOf_eq (w : Worker) (k : Kernel) :
    orderOf w k = k.1.fairnessOrder (w.owned.filter fun id => ! k.1.isIdle id) := by
  rw [orderOf, System.fairnessOrder, System.fairnessOrder, List.partition_eq_filter_filter]
  refine congrArg (fun ranks => (Rank.fairnessOrder ranks).map (·.id)) ?_
  refine List.filterMap_congr fun id hid => ?_
  have hrunnable : ¬ k.1.isIdle id := by simpa using (List.mem_filter.1 hid).2
  rw [process?_tickedEach fun hmem => hrunnable (mem_idleOf.1 hmem).2]

theorem Reachable.process?_of_mem_orderOf (hk : Reachable held k) (hid : id ∈ orderOf w k) :
    (Kernel.tickedEach (idleOf w k) k).1.process? id = k.1.process? id :=
  process?_tickedEach
    (fun hmem => ((mem_orderOf hk.orderly).1 hid).2 (mem_idleOf.1 hmem).2) k

theorem Reachable.isSome_of_mem_orderOf (hk : Reachable held k) (hid : id ∈ orderOf w k) :
    ((Kernel.tickedEach (idleOf w k) k).1.process? id).isSome := by
  obtain ⟨p, hp⟩ := exists_record ((mem_orderOf hk.orderly).1 hid).2
  rw [hk.process?_of_mem_orderOf hid, hp]
  rfl

theorem Reachable.shareIn_ticked (hk : Reachable held k) (hid : id ∈ orderOf w k) (budget : Nat) :
    shareIn budget (Kernel.tickedEach (idleOf w k) k) id = shareIn budget k id := by
  rw [shareIn, shareIn, hk.process?_of_mem_orderOf hid]

theorem Reachable.leftFor_ticked (hk : Reachable held k) (w : Worker) (id : Nat) :
    remainder w.priority w.priority (ahead (orderOf w k) id)
      (Kernel.tickedEach (idleOf w k) k) = leftFor w k id :=
  remainder_congr (fun _ hj => hk.shareIn_ticked (ahead_subset _ _ hj) _) _

/-- The quanta of a pass: each process in its turn has as much as it is granted. -/
theorem Reachable.workerStints_eq_map (hk : Reachable held k) {index : Nat}
    (hw : k.1.workers[index]? = some w) :
    workerStints index k = ((orderOf w k).filter fun id => grantFor w k id ≠ 0).map
      fun id => stint id (grantFor w k id) (turnOf w k id) := by
  have hgrant : ∀ id ∈ orderOf w k, grantIn w.priority w.priority (orderOf w k)
      (Kernel.tickedEach (idleOf w k) k) id = grantFor w k id := by
    intro id hid
    rw [grantIn, hk.shareIn_ticked hid, hk.leftFor_ticked, grantFor]
  rw [workerStints_eq hw, (hk.tickedEach _).serveStints_eq
    (nodup_orderOf hk.orderly (nodup_owned hk.orderly hw))
    (fun id hid => hk.isSome_of_mem_orderOf hid),
    List.filter_congr fun id hid => by rw [hgrant id hid]]
  refine List.map_congr_left fun id hid => ?_
  rw [hgrant id (List.mem_of_mem_filter hid), turnOf]

theorem sum_spent_workerStints_le {index : Nat} (hw : k.1.workers[index]? = some w) :
    ((workerStints index k).map (·.spent)).sum ≤ w.priority := by
  rw [workerStints_eq hw]
  exact sum_spent_serveStints_le _ _ _ _

theorem Reachable.spentBy_workerStints_le (hk : Reachable held k) {index : Nat}
    (hw : k.1.workers[index]? = some w) (hp : k.1.process? id = some p) :
    spentBy id (workerStints index k) ≤ share w.priority p.priority := by
  have honce : quantaOf id (workerStints index k) ≤ 1 := by
    refine (quantaOf_workerStints_le hk.orderly id index).trans ?_
    rw [ownedBy, hw]
    exact List.nodup_iff_count_le_one.1 (nodup_owned hk.orderly hw) id
  have hshare : ∀ x ∈ workerStints index k, x.process = id →
      x.spent ≤ share w.priority p.priority := by
    intro x hx hid
    rw [hk.workerStints_eq_map hw] at hx
    obtain ⟨j, -, rfl⟩ := List.mem_map.1 hx
    obtain rfl : j = id := hid
    refine (spent_stint_le j _ _).trans ((Nat.min_le_left _ _).trans_eq ?_)
    rw [shareIn, hp]
    rfl
  calc
    spentBy id (workerStints index k)
      ≤ quantaOf id (workerStints index k) * share w.priority p.priority := spentBy_le hshare
    _ ≤ 1 * share w.priority p.priority := Nat.mul_le_mul_right _ honce
    _ = share w.priority p.priority := Nat.one_mul _

/-- When those in front have used the budget up, the rest have no quantum. -/
theorem Reachable.exhausted (hk : Reachable held k) {index : Nat}
    (hw : k.1.workers[index]? = some w) (horder : orderOf w k = before ++ rest)
    (hused : w.priority ≤ (before.map (shareIn w.priority k)).sum) (hid : id ∈ rest) :
    quantaOf id (workerStints index k) = 0 ∧ Stalls w k id := by
  have hmem : id ∈ orderOf w k := horder ▸ List.mem_append_right _ hid
  have hnodup := nodup_orderOf hk.orderly (nodup_owned hk.orderly hw)
  obtain ⟨middle, after, hsplit, hmiddle⟩ := List.eq_append_cons_of_mem hid
  have hahead : ahead (orderOf w k) id = before ++ middle := by
    rw [horder] at hnodup
    have hbefore : id ∉ before := fun hmem => List.disjoint_of_nodup_append hnodup hmem hid
    rw [horder, hsplit, ← List.append_assoc, ahead_append (by simp [hbefore, hmiddle])]
  have hleft : leftFor w k id = 0 := by
    rw [leftFor, remainder, hahead, List.map_append, List.sum_append]
    omega
  refine ⟨?_, ((mem_orderOf hk.orderly).1 hmem).2, .inl hleft⟩
  rw [quantaOf, List.countP_eq_zero, hk.workerStints_eq_map hw]
  intro x hx hid
  obtain ⟨j, hj, rfl⟩ := List.mem_map.1 hx
  obtain rfl : j = id := of_decide_eq_true hid
  have hgrant : grantFor w k j ≠ 0 := of_decide_eq_true (List.mem_filter.1 hj).2
  exact hgrant (by rw [grantFor, hleft, Nat.min_zero])

/-- Whoever has something to run when the pass begins has it in its turn, or was halted by one that
was served before. -/
theorem Reachable.runnable_or_gone_turnOf (hk : Reachable held k) (hid : id ∈ orderOf w k) :
    ¬ (turnOf w k id).1.isIdle id ∨ Gone id (turnOf w k id) ∧
      ∃ x ∈ serveStints w.priority w.priority (ahead (orderOf w k) id)
        (Kernel.tickedEach (idleOf w k) k), x.ended.EndsSubtree := by
  refine (hk.tickedEach _).runnable_or_gone_serve (not_mem_ahead _ id) ?_ _ _
  rw [System.isIdle, hk.process?_of_mem_orderOf hid]
  exact ((mem_orderOf hk.orderly).1 hid).2

theorem Reachable.isIdle_turnOf (hk : Reachable held k) (hid : id ∈ orderOf w k) :
    (turnOf w k id).1.isIdle id ↔ Gone id (turnOf w k id) := by
  have hturn : Reachable held (turnOf w k id) := (hk.tickedEach _).serve _ _ _
  constructor
  · exact fun hidle =>
      ((hk.runnable_or_gone_turnOf hid).resolve_left fun hnot => hnot hidle).1
  · exact fun hgone => (hgone.hung hturn.orderly).isIdle

/-- Everybody grows older by a round but those who stall. -/
theorem Reachable.rank_workerPass (hk : Reachable held k) {index : Nat}
    (hw : k.1.workers[index]? = some w) (hid : id ∈ w.owned) :
    ∃ p q, k.1.process? id = some p ∧ (workerPass index k).2.1.process? id = some q ∧
      q.rank = if Stalls w k id then p.rank else p.tick.rank := by
  have howned := nodup_owned hk.orderly hw
  have horder := nodup_orderOf hk.orderly howned
  obtain ⟨p, hp, -⟩ := hk.orderly.recorded.alive id
    (hk.orderly.consistent.owned_registered w (List.mem_of_getElem? hw) id hid)
  rw [workerPass_eq hw]
  by_cases hidle : k.1.isIdle id
  · have holder := process?_tickedEach_of_mem (nodup_idleOf howned) (mem_idleOf.2 ⟨hid, hidle⟩) hp
    obtain ⟨q, hq, hrank⟩ := ((hk.tickedEach _).ages_serve horder w.priority
      w.priority).rank_of_not_mem (fun hmem => ((mem_orderOf hk.orderly).1 hmem).2 hidle) holder
    exact ⟨p, q, hp, hq, by rw [hrank, if_neg fun hstalls => hstalls.1 hidle]⟩
  · have hmem : id ∈ orderOf w k := (mem_orderOf hk.orderly).2 ⟨hid, hidle⟩
    obtain ⟨after, hsplit⟩ := exists_ahead hmem
    obtain ⟨q, hq, hrank⟩ := (hk.tickedEach (idleOf w k)).rank_serve w.priority w.priority
      (hsplit ▸ horder) (fun j hj => hk.isSome_of_mem_orderOf (ahead_subset _ _ hj))
      ((hk.process?_of_mem_orderOf hmem).trans hp)
    rw [← hsplit] at hq
    refine ⟨p, q, hp, hq, hrank.trans (if_congr ?_ rfl rfl)⟩
    rw [hk.leftFor_ticked, hk.shareIn_ticked hmem, ← turnOf, hk.isIdle_turnOf hmem, Stalls,
      and_iff_right hidle]

theorem mem_serveStints_append (hx : x ∈ serveStints budget remaining before k) :
    x ∈ serveStints budget remaining (before ++ rest) k := by
  induction before generalizing remaining k with
  | nil => exact absurd hx List.not_mem_nil
  | cons id before ih =>
    rw [List.cons_append, serveStints_cons]
    rw [serveStints_cons] at hx
    exact List.mem_append.2 ((List.mem_append.1 hx).imp_right fun hx => ih hx)

/-- Whoever is halted when its turn comes was halted in the quantum of one in front of it. -/
theorem Reachable.exists_culprit (hk : Reachable held k) {index : Nat}
    (hw : k.1.workers[index]? = some w) (hid : id ∈ orderOf w k)
    (hgone : Gone id (turnOf w k id)) : ∃ x ∈ workerStints index k,
      x.process ∈ ahead (orderOf w k) id ∧ x.ended.EndsSubtree := by
  obtain ⟨-, x, hx, hends⟩ := (hk.runnable_or_gone_turnOf hid).resolve_left
    fun hnot => hnot ((hk.isIdle_turnOf hid).2 hgone)
  obtain ⟨after, hsplit⟩ := exists_ahead hid
  refine ⟨x, ?_, (processes_serveStints _ _ _ _).subset (List.mem_map_of_mem hx), hends⟩
  rw [workerStints_eq hw]
  exact hsplit ▸ mem_serveStints_append hx

/-- What the pass of a worker gives to its processes, and who grows older in it. -/
structure Apportions (index : Nat) (w : Worker) (k : Kernel) : Prop where
  turns : Turns k (workerStints index k) (workerPass index k).2
  order : orderOf w k = k.1.fairnessOrder (w.owned.filter fun id => ! k.1.isIdle id)
  quanta : workerStints index k = ((orderOf w k).filter fun id => grantFor w k id ≠ 0).map
    fun id => stint id (grantFor w k id) (turnOf w k id)
  total : ((workerStints index k).map (·.spent)).sum ≤ w.priority
  each : ∀ id p, k.1.process? id = some p →
    spentBy id (workerStints index k) ≤ share w.priority p.priority
  exhausted : ∀ before rest, orderOf w k = before ++ rest →
    w.priority ≤ (before.map (shareIn w.priority k)).sum →
      ∀ id ∈ rest, quantaOf id (workerStints index k) = 0 ∧ Stalls w k id
  rank : ∀ id ∈ w.owned, ∃ p q, k.1.process? id = some p ∧
    (workerPass index k).2.1.process? id = some q ∧
      q.rank = if Stalls w k id then p.rank else p.tick.rank
  culprit : ∀ id ∈ orderOf w k, Gone id (turnOf w k id) → ∃ x ∈ workerStints index k,
    x.process ∈ ahead (orderOf w k) id ∧ x.ended.EndsSubtree

/-- In a pass a worker gives out no more instructions than its budget, to nobody more than its
share, in the order of fairness. Its processes grow older by a round, but for those that the budget
does not reach and those that have a share but are halted before it is their turn. -/
theorem apportions_of_reachable (hk : Reachable held k) {index : Nat}
    (hw : k.1.workers[index]? = some w) : Apportions index w k where
  turns := turns_workerPass index k
  order := orderOf_eq w k
  quanta := hk.workerStints_eq_map hw
  total := sum_spent_workerStints_le hw
  each _ _ hp := hk.spentBy_workerStints_le hw hp
  exhausted _ _ horder hused _ hid := hk.exhausted hw horder hused hid
  rank _ hid := hk.rank_workerPass hw hid
  culprit _ hid hgone := hk.exists_culprit hw hid hgone

/-! ### A pass in which everything happens -/

/-- Process 0 halts itself and all below it, which is process 1. Processes 1 to 4 would run forever;
process 4 weighs too little for an instruction. Process 5 has no program. The worker has 50
instructions, and process 4 is far behind the others. -/
def crowdKernel : Kernel :=
  performAll familyKernel ([.generate none, .spawnChild 0, .generate none, .generate none,
    .generate none, .generate none, .bindProgram 0 [0, 0, 0, 0, 0, 127],
    .bindProgram 1 [22, 0, 0, 0, 0], .bindProgram 2 [22, 0, 0, 0, 0],
    .bindProgram 3 [22, 0, 0, 0, 0], .bindProgram 4 [22, 0, 0, 0, 0],
    .setPriority 0 40, .setPriority 1 30, .setPriority 2 30, .setPriority 3 20, .setPriority 4 1,
    .sleepWorker 1, .dispatch 0, .dispatch 1, .dispatch 2, .dispatch 3, .dispatch 4, .dispatch 5,
    .setWorkerPriority 0 50] ++ (List.range 4).flatMap fun id => List.replicate 25 (.tick id))

def crowdWorker : Worker where
  priority := 50
  owned := [0, 1, 2, 3, 4, 5]

theorem reachable_crowdKernel : Reachable [] crowdKernel := by
  have hcreate : Kernel.create familySettings = .ok familyKernel := rfl
  apply (Reachable.create hcreate).performAll
  simp only [List.forall_mem_append, List.forall_mem_flatMap, List.forall_mem_replicate]
  exact ⟨by simp [Op.IsBindImage], fun id _ => .inr not_false⟩

theorem crowdWorker_of_crowdKernel : crowdKernel.1.workers[0]? = some crowdWorker := by
  have hfields : (crowdKernel.1.workers[0]?.map fun w => (w.priority, w.awake, w.owned)) =
      some (50, true, [0, 1, 2, 3, 4, 5]) := by decide +kernel
  obtain ⟨⟨priority, awake, owned⟩, hw, heq⟩ := Option.map_eq_some_iff.1 hfields
  cases heq
  exact hw

/-- Process 4 grows older without a quantum, process 0 halts process 1, which is granted 15
instructions all the same, process 2 has the last 15, and nothing is left for process 3. -/
theorem apportions_crowdKernel :
    Reachable [] crowdKernel ∧ crowdKernel.1.workers[0]? = some crowdWorker ∧
      orderOf crowdWorker crowdKernel = [4, 0, 1, 2, 3] ∧
      (workerStints 0 crowdKernel).map (fun x => (x.process, x.spent)) = [(0, 2), (1, 0), (2, 15)] ∧
      ((workerStints 0 crowdKernel).map (·.spent)).sum ≤ 50 ∧
      (∀ id ∈ [1, 3], Stalls crowdWorker crowdKernel id) ∧
      (∀ id ∈ [0, 2, 4, 5], ¬ Stalls crowdWorker crowdKernel id) ∧
      ∀ id ∈ [0, 1, 2, 3, 4, 5], cycleOf id (workerPass 0 crowdKernel).2 =
        if Stalls crowdWorker crowdKernel id then cycleOf id crowdKernel
        else (cycleOf id crowdKernel + 1) % cycleLimit := by
  have happortions := apportions_of_reachable reachable_crowdKernel crowdWorker_of_crowdKernel
  refine ⟨reachable_crowdKernel, crowdWorker_of_crowdKernel, by decide +kernel, by decide +kernel,
    happortions.total, by decide +kernel, by decide +kernel, fun id hid => ?_⟩
  obtain ⟨p, q, hp, hq, hrank⟩ := happortions.rank id hid
  split
  · rw [if_pos ‹_›] at hrank
    exact (cycleOf_eq hp hq).1 hrank
  · rw [if_neg ‹_›] at hrank
    exact (cycleOf_eq hp hq).2 hrank

end Kernel

end BytecodeKernel
