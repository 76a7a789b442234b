import BytecodeKernel.Proofs.Kernel.Containment
import Mathlib.Order.Bounds.Defs
/-!
What a recursive halt removes, and in which order. The list that the sweep works off always stands
so that nobody on it is below one that comes before. A process at its head is released when all
below it have left the registry, and none of them is on the list behind it, so they were all
released before.
-/

namespace BytecodeKernel

/-- The worker without some of its processes. -/
def Worker.without (w : Worker) (ids : List Nat) : Worker :=
  { w with owned := w.owned.filter (· ∉ ids) }

namespace Worker

variable {w : Worker} {ids others : List Nat}

theorem without_congr (h : ∀ j ∈ w.owned, j ∈ ids ↔ j ∈ others) :
    w.without ids = w.without others := by
  rw [without, without]
  congr 1
  exact List.filter_congr fun j hj => decide_eq_decide.2 (not_congr (h j hj))

theorem without_without (w : Worker) (ids others : List Nat) :
    (w.without ids).without others = w.without (ids ++ others) := by
  simp only [without, List.filter_filter]
  congr 1
  refine List.filter_congr fun j _ => ?_
  rw [← Bool.decide_and, decide_eq_decide, List.mem_append, not_or, and_comm]

theorem remove_eq_without (w : Worker) (id : Nat) : w.remove id = w.without [id] := by
  rw [remove, without]
  congr 1
  exact List.filter_congr fun j _ => decide_eq_decide.2 (not_congr List.mem_singleton.symm)

theorem remove_of_not_mem {id : Nat} (h : id ∉ w.owned) : w.remove id = w := by
  have hsame : w.owned.filter (· ≠ id) = w.owned :=
    List.filter_eq_self.2 fun j hj => decide_eq_true fun heq => h (heq ▸ hj)
  rw [remove, hsame]

end Worker

/-- Nothing differs but the registry, the records and the workers. -/
structure System.Elsewhere (s t : System) : Prop where
  settings : t.settings = s.settings
  nextId : t.nextId = s.nextId
  keepAlive : t.keepAlive = s.keepAlive
  console : t.console = s.console
  storage : t.storage = s.storage

theorem System.Elsewhere.trans {s t u : System} (hst : s.Elsewhere t) (htu : t.Elsewhere u) :
    s.Elsewhere u :=
  ⟨htu.settings.trans hst.settings, htu.nextId.trans hst.nextId, htu.keepAlive.trans hst.keepAlive,
    htu.console.trans hst.console, htu.storage.trans hst.storage⟩

namespace Kernel

/-- A sweep that works off a list and releases these processes, one after the other. -/
inductive Sweeps : List Ending → Kernel → List Nat → Kernel → Prop
  | done (k : Kernel) : Sweeps [] k [] k
  | release {id : Nat} {rest : List Ending} {k k' : Kernel} {order : List Nat}
    (h : Sweeps rest (Kernel.release id k) order k') :
    Sweeps (.release id :: rest) k (id :: order) k'
  | expand {id : Nat} {rest : List Ending} {k k' : Kernel} {order : List Nat}
    (h : Sweeps ((detach k.1 (k.1.childrenOf id)).1.map .expand ++ .release id :: rest)
      ((detach k.1 (k.1.childrenOf id)).2, k.2) order k') :
    Sweeps (.expand id :: rest) k order k'

variable {held : List (Nat × Nat)} {s t : System} {k k' : Kernel} {id i j c : Nat}
  {pending rest : List Ending} {ids order : List Nat}

/-- The sweep comes to its end, whatever is on its list. -/
theorem exists_sweeps (pending : List Ending) (k : Kernel) :
    ∃ order, Sweeps pending k order (sweep pending k) := by
  fun_induction sweep pending k with
  | case1 k => exact ⟨[], .done k⟩
  | case2 k id rest ih =>
    obtain ⟨order, h⟩ := ih
    exact ⟨id :: order, .release h⟩
  | case3 k id rest found ih =>
    obtain ⟨order, h⟩ := ih
    exact ⟨order, .expand h⟩

/-! ### The family tree -/

theorem Descends.trans (hij : Descends s i j) (hjc : Descends s j c) : Descends s i c := by
  induction hjc with
  | self => exact hij
  | child _ hc hregistered ih => exact .child ih hc hregistered

theorem exists_of_mem_childrenOf (hc : c ∈ s.childrenOf i) :
    ∃ p, s.process? i = some p ∧ c ∈ p.children := by
  rw [System.childrenOf] at hc
  cases hp : s.process? i with
  | none => simp [hp] at hc
  | some p => exact ⟨p, rfl, by simpa [hp] using hc⟩

theorem lt_of_mem_childrenOf (hs : s.Related) (hc : c ∈ s.childrenOf i) : i < c := by
  obtain ⟨p, hp, hc⟩ := exists_of_mem_childrenOf hc
  exact (hs.between i p hp c hc).1

theorem le_of_descends (hs : s.Related) (h : Descends s i j) : i ≤ j := by
  induction h with
  | self => exact Nat.le_refl i
  | child _ hc _ ih => exact ih.trans (lt_of_mem_childrenOf hs hc).le

theorem eq_of_mem_childrenOf (hs : s.Related) (hi : c ∈ s.childrenOf i)
    (hj : c ∈ s.childrenOf j) : i = j := by
  obtain ⟨p, hp, hcp⟩ := exists_of_mem_childrenOf hi
  obtain ⟨q, hq, hcq⟩ := exists_of_mem_childrenOf hj
  exact not_imp_comm.1 (hs.apart i p j q hp hq) fun hdisjoint => hdisjoint hcp hcq

/-- No child of a process is below another one. -/
theorem eq_of_descends_sibling (hs : s.Related) (hi : i ∈ s.childrenOf id)
    (hj : j ∈ s.childrenOf id) (h : Descends s i j) : i = j := by
  cases h with
  | self => rfl
  | child hparent hc _ =>
    obtain rfl := eq_of_mem_childrenOf hs hc hj
    exact absurd (le_of_descends hs hparent) (lt_of_mem_childrenOf hs hi).not_ge

/-- The processes that can be reached are the least set that has the first one and the registered
children of all its members. -/
theorem isLeast_descends (s : System) (id : Nat) :
    IsLeast {members : Set Nat | id ∈ members ∧
      ∀ j ∈ members, ∀ c ∈ s.childrenOf j, s.IsRegistered c → c ∈ members}
      {j | Descends s id j} := by
  refine ⟨⟨.self, fun j hj c hc hregistered => .child hj hc hregistered⟩, ?_⟩
  rintro members ⟨hid, hclosed⟩ j hj
  induction hj with
  | self => exact hid
  | child _ hc hregistered ih => exact hclosed _ ih _ hc hregistered

/-! ### The order -/

/-- Nobody in the list is one that comes before, or below it. -/
def Upwards (s : System) (ids : List Nat) : Prop :=
  ids.Pairwise fun i j => ¬ Descends s i j

theorem Upwards.nodup (h : Upwards s ids) : ids.Nodup := by
  refine h.imp fun hij heq => hij ?_
  rw [heq]
  exact .self

/-- Children go before their parent, and whoever was behind the parent is not below them. -/
theorem Upwards.expand (hs : s.Related) (h : Unwinding s id (.expand i :: rest) t)
    (hpending : Upwards s (i :: rest.map Ending.process)) :
    Upwards s (((detach t (t.childrenOf i)).1.map Ending.expand ++ .release i :: rest).map
      Ending.process) := by
  have hdetached := detached_detach t (t.childrenOf i)
  generalize (detach t (t.childrenOf i)).1 = found at hdetached ⊢
  have hchild : ∀ c ∈ found, c ∈ s.childrenOf i := by
    intro c hc
    rw [← h.childrenOf]
    exact ((hdetached.mem_found c).1 hc).1
  have hbelow : ∀ c ∈ found, Descends s i c := fun c hc =>
    .child .self (hchild c hc) (h.registered c ((hdetached.mem_found c).1 hc).2)
  rw [map_process_expand]
  refine List.pairwise_append.2 ⟨?_, hpending, fun c hc j hj hdescends => ?_⟩
  · refine hdetached.nodup.imp_of_mem fun hb hc hne hdescends => hne ?_
    exact eq_of_descends_sibling hs (hchild _ hb) (hchild _ hc) hdescends
  · rcases List.mem_cons.1 hj with rfl | hj
    · exact absurd (le_of_descends hs hdescends) (lt_of_mem_childrenOf hs (hchild c hc)).not_ge
    · exact (List.pairwise_cons.1 hpending).1 j hj ((hbelow c hc).trans hdescends)

/-- When a process is released all below it have left the registry. -/
theorem Unwinding.spent (h : Unwinding s id (.release i :: rest) t)
    (hpending : Upwards s (i :: rest.map Ending.process))
    (hj : Descends s i j) : ¬ t.IsRegistered j := by
  -- Nobody below it waits to be looked at, so the list's invariant goes from parent to child.
  have hlooked : ∀ c, Descends s i c → .expand c ∉ (.release i :: rest : List Ending) := by
    intro c hc hmem
    have hrest : .expand c ∈ rest := (List.mem_cons.1 hmem).resolve_left (by simp)
    exact (List.pairwise_cons.1 hpending).1 c (List.mem_map_of_mem (f := Ending.process) hrest) hc
  induction hj with
  | self => exact (h.left i (head_mem_concerned _ _)).2
  | @child j c hj hc hregistered ih =>
    have hs : s.IsRegistered j := by
      cases hj with
      | self => exact (h.left i (head_mem_concerned _ _)).1
      | child _ _ hregistered => exact hregistered
    exact h.closed j hs ih (hlooked j hj) c hc

/-! ### What a sweep does -/

theorem Sweeps.registered_before (h : Sweeps pending k order k') (hj : k'.1.IsRegistered j) :
    k.1.IsRegistered j := by
  induction h with
  | done k => exact hj
  | @release i rest k k' order _ ih =>
    exact (System.isRegistered_congr (registry_release i k) j).1 (ih hj)
  | @expand i rest k k' order _ ih =>
    exact (detached_detach k.1 (k.1.childrenOf i)).registered_before (ih hj)

/-- It releases those on its list, and those that leave the registry meanwhile. -/
theorem Sweeps.mem_order (h : Sweeps pending k order k') :
    j ∈ order ↔ j ∈ concerned pending ∨ k.1.IsRegistered j ∧ ¬ k'.1.IsRegistered j := by
  induction h with
  | done k => simp [concerned]
  | @release i rest k k' order _ ih =>
    rw [List.mem_cons, ih, System.isRegistered_congr (registry_release i k), concerned_cons,
      Set.mem_insert_iff, or_assoc]
    rfl
  | @expand i rest k k' order h ih =>
    have hdetached := detached_detach k.1 (k.1.childrenOf i)
    have hlast := h.registered_before (j := j)
    generalize detach k.1 (k.1.childrenOf i) = d at hdetached hlast ih
    have hfound := hdetached.mem_found j
    have hregistered := hdetached.registered j
    rw [ih, mem_concerned_expanded]
    by_cases hchild : j ∈ k.1.childrenOf i
    · have hgone : ¬ k'.1.IsRegistered j := fun hj => (hregistered.1 (hlast hj)).2 hchild
      simp [hfound, hregistered, hchild, hgone, or_comm]
    · simp [hfound, hregistered, hchild]

theorem Sweeps.upwards (halive : ∀ j, s.IsRegistered j → ∃ p, s.process? j = some p ∧
    p.halted = false) (hs : s.Related) (h : Sweeps pending k order k')
    (hk : Unwinding s id pending k.1) (hpending : Upwards s (pending.map Ending.process)) :
    Upwards s order := by
  induction h with
  | done k => exact .nil
  | @release i rest k k' order h ih =>
    have hi := hk.left i (head_mem_concerned _ _)
    have hrest := (List.pairwise_cons.1 hpending).2
    refine List.pairwise_cons.2 ⟨fun j hj hbelow => ?_, ih (hk.release (halive i hi.1)) hrest⟩
    rcases h.mem_order.1 hj with hj | ⟨hj, -⟩
    · exact (List.pairwise_cons.1 hpending).1 j (mem_concerned.1 hj) hbelow
    · exact hk.spent hpending hbelow ((System.isRegistered_congr (registry_release i k) j).1 hj)
  | expand _ ih => exact ih hk.expand (hpending.expand hs hk)

/-! ### Workers -/

theorem workers_detach (s : System) (ids : List Nat) :
    (detach s ids).2.workers = s.workers.map (·.without (detach s ids).1) := by
  induction ids with
  | nil => simp [detach, Worker.without]
  | cons id rest ih =>
    simp only [detach]
    split
    · show (detach s rest).2.workers.map (·.remove id) = _
      rw [ih, List.map_map]
      refine List.map_congr_left fun w _ => ?_
      rw [Function.comp_apply, Worker.remove_eq_without, Worker.without_without]
      exact Worker.without_congr fun j _ => by simp [or_comm]
    · exact ih

theorem workers_release (id : Nat) (k : Kernel) : (release id k).1.workers = k.1.workers := by
  obtain ⟨s, a⟩ := k
  simp only [release]
  split
  · rfl
  · split <;> rfl

/-- The workers lose those that are released, and keep the others in their order. -/
theorem Sweeps.workers (h : Sweeps pending k order k')
    (hpending : ∀ j ∈ concerned pending, ∀ w ∈ k.1.workers, j ∉ w.owned) :
    k'.1.workers = k.1.workers.map (·.without order) := by
  induction h with
  | done k => simp [Worker.without]
  | @release i rest k k' order _ ih =>
    rw [concerned_cons] at hpending
    rw [ih (by rw [workers_release]; exact fun j hj => hpending j (Set.mem_insert_of_mem _ hj)),
      workers_release]
    refine List.map_congr_left fun w hw => Worker.without_congr fun j hj => ?_
    have hne : j ≠ i := by
      rintro rfl
      exact hpending j (Set.mem_insert _ _) w hw hj
    simp [hne]
  | @expand i rest k k' order h ih =>
    have hdetached := workers_detach k.1 (k.1.childrenOf i)
    have hfound : ∀ j ∈ (detach k.1 (k.1.childrenOf i)).1, j ∈ order := fun j hj =>
      h.mem_order.2 (.inl (by rw [concerned_expand]; exact .inl hj))
    rw [ih ?_, hdetached, List.map_map]
    · refine List.map_congr_left fun w _ => ?_
      rw [Function.comp_apply, Worker.without_without]
      refine Worker.without_congr fun j _ => ?_
      rw [List.mem_append]
      exact ⟨fun hj => hj.elim (hfound j) id, .inr⟩
    · rw [hdetached]
      intro j hj w hw howned
      obtain ⟨v, hv, rfl⟩ := List.mem_map.1 hw
      obtain ⟨hold, hkept⟩ := List.mem_filter.1 howned
      rw [concerned_expand, concerned_cons] at hj
      rw [concerned_cons] at hpending
      rcases hj with hj | hj
      · exact of_decide_eq_true hkept hj
      · exact hpending j hj v hv hold

/-! ### The rest of the system -/

theorem elsewhere_detach (s : System) (ids : List Nat) : s.Elsewhere (detach s ids).2 := by
  induction ids with
  | nil => exact ⟨rfl, rfl, rfl, rfl, rfl⟩
  | cons id rest ih =>
    simp only [detach]
    split
    · exact ih.trans ⟨rfl, rfl, rfl, rfl, rfl⟩
    · exact ih

theorem elsewhere_release (id : Nat) (k : Kernel) : k.1.Elsewhere (release id k).1 := by
  obtain ⟨s, a⟩ := k
  simp only [release]
  split
  · exact ⟨rfl, rfl, rfl, rfl, rfl⟩
  · split <;> exact ⟨rfl, rfl, rfl, rfl, rfl⟩

theorem Sweeps.elsewhere (h : Sweeps pending k order k') : k.1.Elsewhere k'.1 := by
  induction h with
  | done k => exact ⟨rfl, rfl, rfl, rfl, rfl⟩
  | release _ ih => exact (elsewhere_release _ _).trans ih
  | expand _ ih => exact (elsewhere_detach _ _).trans ih

/-! ### The subtree -/

/-- The kernel in which the sweep of a subtree begins. -/
def uprooted (id : Nat) (k : Kernel) : Kernel :=
  ((k.1.unregister id).modifyProcess id (·.hang), k.2)

/-- Those that are released are those that have ended. -/
theorem Sweeps.mem_order_iff_descends (h : Sweeps [.expand id] (uprooted id k) order k')
    (hid : k.1.IsRegistered id) (hended : Ended (Descends k.1 id) k.1 k'.1) :
    j ∈ order ↔ Descends k.1 id j := by
  have hbegin : (uprooted id k).1.IsRegistered j ↔ k.1.IsRegistered j ∧ j ≠ id :=
    System.isRegistered_unregister
  rw [h.mem_order, concerned_singleton, hbegin, hended.registered, Set.mem_singleton_iff]
  constructor
  · rintro (rfl | ⟨⟨hj, -⟩, hgone⟩)
    · exact .self
    · exact not_not.1 fun hdescends => hgone ⟨hj, hdescends⟩
  · intro hdescends
    have hj := isRegistered_of_descends hid hdescends
    by_cases heq : j = id
    · exact .inl heq
    · exact .inr ⟨⟨hj, heq⟩, fun hkept => hkept.2 hdescends⟩

theorem Sweeps.workers_uprooted (h : Sweeps [.expand id] (uprooted id k) order k') :
    k'.1.workers = k.1.workers.map (·.without order) := by
  have hbegin : (uprooted id k).1.workers = k.1.workers.map (·.without [id]) :=
    List.map_congr_left fun w _ => w.remove_eq_without id
  have hid : id ∈ order := h.mem_order.2 (.inl (head_mem_concerned _ _))
  rw [h.workers ?_, hbegin, List.map_map]
  · refine List.map_congr_left fun w _ => ?_
    rw [Function.comp_apply, Worker.without_without]
    refine Worker.without_congr fun j _ => ?_
    rw [List.cons_append, List.mem_cons]
    exact or_iff_right_of_imp fun heq => heq ▸ hid
  · rw [hbegin, concerned_singleton]
    rintro j rfl w hw howned
    obtain ⟨v, -, rfl⟩ := List.mem_map.1 hw
    exact of_decide_eq_true (List.mem_filter.1 howned).2 (List.mem_singleton_self j)

/-- What a recursive halt does: these processes are released in this order, and all others are left
alone. -/
structure Cleared (id : Nat) (order : List Nat) (k k' : Kernel) : Prop where
  sweeps : Sweeps [.expand id] (uprooted id k) order k'
  least : IsLeast {members : Set Nat | id ∈ members ∧
    ∀ j ∈ members, ∀ c ∈ k.1.childrenOf j, k.1.IsRegistered c → c ∈ members} {j | j ∈ order}
  once : order.Nodup
  upwards : Upwards k.1 order
  registered : ∀ j, k'.1.IsRegistered j ↔ k.1.IsRegistered j ∧ j ∉ order
  halted : ∀ j ∈ order, ∃ p, k.1.process? j = some p ∧ p.halted = false ∧
    k'.1.process? j = some p.halt
  workers : k'.1.workers = k.1.workers.map (·.without order)
  others : ∀ j, j ∉ order → k'.1.process? j = k.1.process? j ∧ Untouched j k k'
  elsewhere : k.1.Elsewhere k'.1

theorem Housed.cleared (h : Housed none held k) (h' : Housed none held k') (hs : k.1.Orderly ∅)
    (hid : k.1.IsRegistered id) (hsweeps : Sweeps [.expand id] (uprooted id k) order k')
    (hended : Ended (Descends k.1 id) k.1 k'.1) (hbytes : SameBytes k.2 k'.2) :
    Cleared id order k k' := by
  have hmem : ∀ j, j ∈ order ↔ Descends k.1 id j := fun j =>
    hsweeps.mem_order_iff_descends hid hended
  have hupwards : Upwards k.1 order := hsweeps.upwards hs.recorded.alive hs.related
    (unwinding_begin hid) (List.pairwise_singleton _ _)
  refine ⟨hsweeps, ?_, hupwards.nodup, hupwards, fun j => ?_, fun j hj => ?_,
    hsweeps.workers_uprooted, fun j hj => ?_, ?_⟩
  · have hset : {j | j ∈ order} = {j | Descends k.1 id j} := Set.ext hmem
    exact hset ▸ isLeast_descends k.1 id
  · rw [hended.registered, hmem]
  · rw [hmem] at hj
    obtain ⟨p, hp, halive⟩ := hs.recorded.alive j (isRegistered_of_descends hid hj)
    refine ⟨p, hp, halive, ?_⟩
    rw [hended.halted j hj, hp]
    rfl
  · rw [hmem] at hj
    have hrecord := (hended.others j hj).1
    refine ⟨hrecord, h.untouched h' (fun p hp => ?_) fun p c _ _ => hbytes.spares _⟩
    exact ⟨p, hrecord.trans hp, .refl p, rfl⟩
  · have hbegin : k.1.Elsewhere (uprooted id k).1 := ⟨rfl, rfl, rfl, rfl, rfl⟩
    exact hbegin.trans hsweeps.elsewhere

/-- A recursive halt refuses a process that is not registered. Else it comes to its end, and has
released the process and those that can be reached from it through registered children, each once
and after all below it. They are off the registry and off every worker, and no other process, no
other place in a worker's list and nothing else in the system has changed. -/
theorem haltSubtree_of_reachable (h : Reachable held k) (id : Nat) :
    (¬ k.1.IsRegistered id → haltSubtree id k = .error (.unknownProcess id) k) ∧
      (k.1.IsRegistered id →
        ∃ order k', haltSubtree id k = .ok () k' ∧ Cleared id order k k') := by
  have heq := haltSubtree_eq id k
  refine ⟨fun hid => heq.trans (if_neg hid), fun hid => ?_⟩
  rw [if_pos hid] at heq
  obtain ⟨order, hsweeps⟩ := exists_sweeps [.expand id] (uprooted id k)
  have hreached : reached (haltSubtree id k) = sweep [.expand id] (uprooted id k) := by
    rw [heq]
    rfl
  have hafter := (preserves_haltSubtree_housed id).reached h.housed
  have hended := ended_haltSubtree h.orderly hid
  have hbytes := sameBytes_haltSubtree id k
  rw [hreached] at hafter hended hbytes
  exact ⟨order, _, heq, h.housed.cleared hafter h.orderly hid hsweeps hended hbytes⟩

/-! ### A tree with a gap -/

/-- Processes 1 and 2 are children of 0, process 3 is one of 1 and process 4 one of 2, and process 5
is on its own. Process 2 has been halted. -/
def gappedKernel : Kernel :=
  performAll familyKernel [.generate none, .generate (some 0), .generate (some 0),
    .generate (some 1), .generate (some 2), .generate none, .halt 2, .dispatch 3, .dispatch 5,
    .dispatch 0, .dispatch 4, .dispatch 1]

theorem reachable_gappedKernel : Reachable [] gappedKernel := by
  have hcreate : Kernel.create familySettings = .ok familyKernel := rfl
  apply (Reachable.create hcreate).performAll
  simp [Op.IsBindImage]

/-- The part of the tree that a halt of process 0 takes is a chain. -/
theorem descends_gappedKernel {i j : Nat} (hi : i ∈ [3, 1, 0]) (hj : j ∈ [3, 1, 0]) (hle : i ≤ j) :
    Descends gappedKernel.1 i j := by
  have hfirst : Descends gappedKernel.1 0 1 :=
    .child .self (by decide +kernel) (by decide +kernel)
  have hsecond : Descends gappedKernel.1 1 3 :=
    .child .self (by decide +kernel) (by decide +kernel)
  simp only [List.mem_cons, List.not_mem_nil, or_false] at hi hj
  rcases hi with rfl | rfl | rfl <;> rcases hj with rfl | rfl | rfl <;> first
    | omega
    | exact .self
    | exact hfirst
    | exact hsecond
    | exact hfirst.trans hsecond

theorem order_gappedKernel {order : List Nat} (h : Cleared 0 order gappedKernel k') :
    order = [3, 1, 0] := by
  obtain ⟨⟨hroot, hclosed⟩, hleast⟩ := h.least
  have hchain : ∀ j ∈ [3, 1, 0], ∀ c ∈ gappedKernel.1.childrenOf j,
      gappedKernel.1.IsRegistered c → c ∈ [3, 1, 0] := by decide +kernel
  have hone : 1 ∈ order := hclosed 0 hroot 1 (by decide +kernel) (by decide +kernel)
  have hthree : 3 ∈ order := hclosed 1 hone 3 (by decide +kernel) (by decide +kernel)
  have hmem : ∀ j, j ∈ order ↔ j ∈ [3, 1, 0] := by
    intro j
    constructor
    · exact fun hj => hleast (show {j | j ∈ [3, 1, 0]} ∈ _ from ⟨by simp, hchain⟩) hj
    · simp only [List.mem_cons, List.not_mem_nil, or_false]
      rintro (rfl | rfl | rfl)
      · exact hthree
      · exact hone
      · exact hroot
  have hperm : order.Perm [3, 1, 0] := (List.perm_ext_iff_of_nodup h.once (by decide)).2 hmem
  have hdown : order.Pairwise (· > ·) := h.upwards.imp_of_mem fun hi hj hbelow =>
    Nat.lt_of_not_le fun hle =>
      hbelow (descends_gappedKernel ((hmem _).1 hi) ((hmem _).1 hj) hle)
  exact hperm.eq_of_pairwise (fun _ _ _ _ hab hba => absurd hab hba.asymm) hdown (by decide)

/-- Process 2 is not there any more, so it can not be halted. When process 0 is, process 3 is
released before 1 and 1 before 0. Process 4 stays, for its parent had gone before, and stands
behind 5 with the worker that had them all. -/
theorem haltSubtree_gappedKernel :
    Reachable [] gappedKernel ∧
      haltSubtree 2 gappedKernel = .error (.unknownProcess 2) gappedKernel ∧
      gappedKernel.1.workers.map (·.owned) = [[3, 5, 0, 4, 1], []] ∧
      ∃ k', haltSubtree 0 gappedKernel = .ok () k' ∧ Cleared 0 [3, 1, 0] gappedKernel k' ∧
        k'.1.workers.map (·.owned) = [[5, 4], []] ∧ Untouched 4 gappedKernel k' := by
  have hreachable := reachable_gappedKernel
  obtain ⟨hunknown, -⟩ := haltSubtree_of_reachable hreachable 2
  obtain ⟨-, hknown⟩ := haltSubtree_of_reachable hreachable 0
  obtain ⟨order, k', heq, hcleared⟩ := hknown (by decide +kernel)
  obtain rfl := order_gappedKernel hcleared
  have howned : gappedKernel.1.workers.map (·.owned) = [[3, 5, 0, 4, 1], []] := by decide +kernel
  refine ⟨hreachable, hunknown (by decide +kernel), howned, k', heq, hcleared, ?_,
    (hcleared.others 4 (by decide)).2⟩
  have hworkers : k'.1.workers.map (·.owned) =
      (gappedKernel.1.workers.map (·.owned)).map fun ids => ids.filter (· ∉ [3, 1, 0]) := by
    rw [hcleared.workers, List.map_map, List.map_map]
    rfl
  rw [hworkers, howned]
  rfl

end Kernel

end BytecodeKernel
