import BytecodeKernel.Kernel.Lifecycle
import BytecodeKernel.Kernel.Dispatch
import Mathlib.Data.List.Nodup
import Mathlib.Data.Set.Insert
/-!
The registry, the workers and the family of the processes. While processes end there are some that
have left the registry and are not halted yet; the invariant carries them as a set. What operations
may not take back is a relation between two systems: identities are handed out upwards, records
stay, halted processes stay halted and lists of children only grow.
-/

namespace BytecodeKernel

/-- The process does not run and holds nothing. -/
structure Process.Bare (p : Process) : Prop where
  active : p.active = false
  image : p.image = none
  context : p.context = none

/-- A change to a process that leaves its place among the others alone. -/
structure Process.Quiet (p q : Process) : Prop where
  id : q.id = p.id
  children : q.children = p.children
  halted : q.halted = p.halted
  bare : p.halted → p.Bare → q.Bare

/-- A change to what a record says of a process, and to nothing that the process has. -/
structure Process.Relabels (p q : Process) : Prop where
  id : q.id = p.id
  children : q.children = p.children
  halted : q.halted = p.halted
  image : q.image = p.image
  context : q.context = p.context
  asleep : p.halted → p.active = false → q.active = false

namespace Process

theorem Relabels.quiet {p q : Process} (h : p.Relabels q) : p.Quiet q :=
  ⟨h.id, h.children, h.halted, fun hhalted hbare =>
    ⟨h.asleep hhalted hbare.active, h.image.trans hbare.image, h.context.trans hbare.context⟩⟩

theorem relabels_hang (p : Process) : p.Relabels p.hang :=
  ⟨rfl, rfl, rfl, rfl, rfl, fun _ _ => rfl⟩

theorem relabels_wake (p : Process) : p.Relabels p.wake := by
  rw [wake]
  split
  · exact ⟨rfl, rfl, rfl, rfl, rfl, fun _ h => h⟩
  · rename_i halive
    exact ⟨rfl, rfl, rfl, rfl, rfl, fun hhalted => absurd hhalted halive⟩

theorem relabels_tick (p : Process) : p.Relabels p.tick :=
  ⟨rfl, rfl, rfl, rfl, rfl, fun _ h => h⟩

/-- Another priority and another name. -/
theorem relabels_rename (p : Process) (priority : Nat) (name : List UInt8) :
    p.Relabels { p with priority, name } :=
  ⟨rfl, rfl, rfl, rfl, rfl, fun _ h => h⟩

end Process

namespace System

/-- The processes of all workers, one worker after the other. -/
def owned (s : System) : List Nat :=
  s.workers.flatMap (·.owned)

structure Staffed (s : System) : Prop where
  registered : ∀ id ∈ s.owned, s.IsRegistered id
  nodup : s.owned.Nodup

/-- Registered processes are those that are not halted, but for some that are about to be. -/
structure Recorded (ending : Set Nat) (s : System) : Prop where
  alive : ∀ id, s.IsRegistered id → ∃ p, s.process? id = some p ∧ p.halted = false
  registered : ∀ id p, s.process? id = some p → p.halted = false →
    s.IsRegistered id ∨ id ∈ ending
  left : ∀ id ∈ ending, ¬ s.IsRegistered id
  bare : ∀ id p, s.process? id = some p → p.halted → p.Bare

/-- Identities stand below the counter, and children behind their one parent. -/
structure Related (s : System) : Prop where
  named : ∀ id p, s.process? id = some p → p.id = id ∧ id < s.nextId
  between : ∀ id p, s.process? id = some p → ∀ c ∈ p.children, id < c ∧ c < s.nextId
  nodup : ∀ id p, s.process? id = some p → p.children.Nodup
  apart : ∀ i p j q, s.process? i = some p → s.process? j = some q → i ≠ j →
    p.children.Disjoint q.children

structure Orderly (ending : Set Nat) (s : System) : Prop where
  staffed : s.Staffed
  recorded : s.Recorded ending
  related : s.Related

/-- What no operation takes back. -/
structure Follows (s t : System) : Prop where
  counter : s.nextId ≤ t.nextId
  kept : ∀ id p, s.process? id = some p →
    ∃ q, t.process? id = some q ∧ (p.halted → q.halted) ∧ p.children <+: q.children
  fresh : ∀ id, s.process? id = none → t.process? id ≠ none → s.nextId ≤ id

variable {s t u : System} {ending : Set Nat} {id : Nat}

theorem Follows.refl (s : System) : s.Follows s :=
  ⟨Nat.le_refl _, fun _ p hp => ⟨p, hp, fun h => h, List.prefix_refl _⟩, fun _ h h' => absurd h h'⟩

theorem Follows.trans (hst : s.Follows t) (htu : t.Follows u) : s.Follows u where
  counter := hst.counter.trans htu.counter
  kept id p hp := by
    obtain ⟨q, hq, hhalted, hchildren⟩ := hst.kept id p hp
    obtain ⟨r, hr, hhalted', hchildren'⟩ := htu.kept id q hq
    exact ⟨r, hr, fun h => hhalted' (hhalted h), hchildren.trans hchildren'⟩
  fresh id hnone hsome := by
    cases ht : t.process? id with
    | none => exact hst.counter.trans (htu.fresh id ht hsome)
    | some q => exact hst.fresh id hnone (by rw [ht]; exact Option.some_ne_none q)

/-! ### What each part reads -/

theorem process?_congr (h : t.processes = s.processes) (id : Nat) :
    t.process? id = s.process? id := by
  rw [process?, process?, h]

theorem isRegistered_congr (h : t.registry = s.registry) (id : Nat) :
    t.IsRegistered id ↔ s.IsRegistered id := by
  rw [IsRegistered, IsRegistered, h]

theorem Staffed.congr (h : s.Staffed) (hworkers : t.workers = s.workers)
    (hregistry : t.registry = s.registry) : t.Staffed := by
  have howned : t.owned = s.owned := by rw [owned, owned, hworkers]
  refine ⟨?_, howned ▸ h.nodup⟩
  intro id hid
  rw [isRegistered_congr hregistry]
  exact h.registered id (howned ▸ hid)

theorem Recorded.congr (h : s.Recorded ending) (hregistry : t.registry = s.registry)
    (hprocesses : t.processes = s.processes) : t.Recorded ending := by
  refine ⟨?_, ?_, ?_, ?_⟩
  all_goals simp only [isRegistered_congr hregistry, process?_congr hprocesses]
  · exact h.alive
  · exact h.registered
  · exact h.left
  · exact h.bare

theorem Related.congr (h : s.Related) (hprocesses : t.processes = s.processes)
    (hcounter : s.nextId ≤ t.nextId) : t.Related := by
  refine ⟨?_, ?_, ?_, ?_⟩
  all_goals simp only [process?_congr hprocesses]
  · exact fun id p hp => ⟨(h.named id p hp).1, (h.named id p hp).2.trans_le hcounter⟩
  · intro id p hp c hc
    obtain ⟨hlt, hc⟩ := h.between id p hp c hc
    exact ⟨hlt, hc.trans_le hcounter⟩
  · exact h.nodup
  · exact h.apart

/-- Parts of the system that are neither registry nor records nor workers do not matter, and the
counter may go ahead. -/
theorem Orderly.congr (h : s.Orderly ending) (hworkers : t.workers = s.workers)
    (hregistry : t.registry = s.registry) (hprocesses : t.processes = s.processes)
    (hcounter : s.nextId ≤ t.nextId) : t.Orderly ending :=
  ⟨h.staffed.congr hworkers hregistry, h.recorded.congr hregistry hprocesses,
    h.related.congr hprocesses hcounter⟩

theorem follows_of_eq (hprocesses : t.processes = s.processes) (hcounter : s.nextId ≤ t.nextId) :
    s.Follows t where
  counter := hcounter
  kept id p hp := ⟨p, by rwa [process?_congr hprocesses], fun h => h, List.prefix_refl _⟩
  fresh id hnone hsome := by
    rw [process?_congr hprocesses] at hsome
    exact absurd hnone hsome

/-- Fewer processes may be owned. -/
theorem Staffed.of_sublist (h : s.Staffed) (hsub : t.owned.Sublist s.owned)
    (hregistered : ∀ id ∈ t.owned, s.IsRegistered id → t.IsRegistered id) : t.Staffed where
  registered id hid := hregistered id hid (h.registered id (hsub.subset hid))
  nodup := h.nodup.sublist hsub

/-! ### Changes to one record -/

theorem process?_modify_eq_some {f : Process → Process} {j : Nat} {q : Process}
    (h : (s.modifyProcess id f).process? j = some q) :
    (j = id ∧ ∃ p, s.process? id = some p ∧ q = f p) ∨ (j ≠ id ∧ s.process? j = some q) := by
  rw [process?_modifyProcess] at h
  by_cases hj : id = j
  · rw [if_pos hj] at h
    obtain ⟨p, hp, heq⟩ := Option.map_eq_some_iff.1 h
    exact .inl ⟨hj.symm, p, hp, heq.symm⟩
  · rw [if_neg hj] at h
    exact .inr ⟨fun heq => hj heq.symm, h⟩

theorem process?_modify_self {p : Process} (h : s.process? id = some p) (f : Process → Process) :
    (s.modifyProcess id f).process? id = some (f p) := by
  rw [process?_modifyProcess, if_pos rfl, h]
  rfl

theorem process?_modify_of_eq_some {f : Process → Process} {j : Nat} {p : Process}
    (h : s.process? j = some p) :
    (s.modifyProcess id f).process? j = some (if id = j then f p else p) := by
  rw [process?_modifyProcess]
  by_cases hj : id = j
  · subst hj
    rw [if_pos rfl, if_pos rfl, h]
    rfl
  · rw [if_neg hj, if_neg hj, h]

/-- A record that changes only in what its place does not depend on. -/
theorem Related.modify (h : s.Related) {f : Process → Process}
    (hf : ∀ p, s.process? id = some p → (f p).id = p.id ∧ (f p).children = p.children) :
    (s.modifyProcess id f).Related := by
  -- Every record after the change has a record before it with the same identity and children.
  have hold : ∀ j q, (s.modifyProcess id f).process? j = some q →
      ∃ p, s.process? j = some p ∧ q.id = p.id ∧ q.children = p.children := by
    intro j q hq
    rcases process?_modify_eq_some hq with ⟨rfl, p, hp, rfl⟩ | ⟨-, hq⟩
    · exact ⟨p, hp, hf p hp⟩
    · exact ⟨q, hq, rfl, rfl⟩
  refine ⟨?_, ?_, ?_, ?_⟩
  · intro j q hq
    obtain ⟨p, hp, hid, -⟩ := hold j q hq
    rw [hid]
    exact h.named j p hp
  · intro j q hq c hc
    obtain ⟨p, hp, -, hchildren⟩ := hold j q hq
    exact h.between j p hp c (hchildren ▸ hc)
  · intro j q hq
    obtain ⟨p, hp, -, hchildren⟩ := hold j q hq
    rw [hchildren]
    exact h.nodup j p hp
  · intro i p j q hp hq hne
    obtain ⟨p', hp', -, hchildren⟩ := hold i p hp
    obtain ⟨q', hq', -, hchildren'⟩ := hold j q hq
    rw [hchildren, hchildren']
    exact h.apart i p' j q' hp' hq' hne

theorem follows_modify {f : Process → Process}
    (hf : ∀ p, s.process? id = some p → (p.halted → (f p).halted) ∧ p.children <+: (f p).children) :
    s.Follows (s.modifyProcess id f) where
  counter := Nat.le_refl _
  kept j p hp := by
    refine ⟨_, process?_modify_of_eq_some hp, ?_⟩
    split
    · rename_i hj
      subst hj
      exact hf p hp
    · exact ⟨fun h => h, List.prefix_refl _⟩
  fresh j hnone hsome := by
    rw [process?_modifyProcess] at hsome
    by_cases hj : id = j
    · subst hj
      rw [if_pos rfl, hnone] at hsome
      exact absurd rfl hsome
    · rw [if_neg hj] at hsome
      exact absurd hnone hsome

theorem Recorded.modify (h : s.Recorded ending) {f : Process → Process}
    (hf : ∀ p, s.process? id = some p → p.Quiet (f p)) :
    (s.modifyProcess id f).Recorded ending := by
  refine ⟨?_, ?_, h.left, ?_⟩
  · intro j hj
    obtain ⟨p, hp, hhalted⟩ := h.alive j hj
    refine ⟨_, process?_modify_of_eq_some hp, ?_⟩
    split
    · rename_i heq
      subst heq
      exact (hf p hp).halted.trans hhalted
    · exact hhalted
  · intro j q hq hhalted
    rcases process?_modify_eq_some hq with ⟨rfl, p, hp, rfl⟩ | ⟨-, hq⟩
    · exact h.registered j p hp ((hf p hp).halted.symm.trans hhalted)
    · exact h.registered j q hq hhalted
  · intro j q hq hhalted
    rcases process?_modify_eq_some hq with ⟨rfl, p, hp, rfl⟩ | ⟨-, hq⟩
    · rw [(hf p hp).halted] at hhalted
      exact (hf p hp).bare hhalted (h.bare j p hp hhalted)
    · exact h.bare j q hq hhalted

theorem Orderly.modify (h : s.Orderly ending) {f : Process → Process}
    (hf : ∀ p, s.process? id = some p → p.Quiet (f p)) :
    (s.modifyProcess id f).Orderly ending ∧ s.Follows (s.modifyProcess id f) := by
  refine ⟨⟨h.staffed.congr rfl rfl, h.recorded.modify hf, h.related.modify ?_⟩, follows_modify ?_⟩
  · intro p hp
    exact ⟨(hf p hp).id, (hf p hp).children⟩
  · intro p hp
    rw [(hf p hp).halted, (hf p hp).children]
    exact ⟨fun h => h, List.prefix_refl _⟩

/-! ### The end of a process -/

theorem owned_unregister (s : System) (id : Nat) :
    (s.unregister id).owned = s.owned.filter (· ≠ id) := by
  rw [owned, unregister, List.flatMap_map, owned, List.filter_flatMap]
  rfl

theorem isRegistered_unregister {j : Nat} :
    (s.unregister id).IsRegistered j ↔ s.IsRegistered j ∧ j ≠ id := by
  show j ∈ s.registry.erase id ↔ j ∈ s.registry ∧ j ≠ id
  rw [Std.TreeSet.mem_erase, and_comm, ne_eq, Nat.compare_eq_eq, @eq_comm _ id j]

theorem Orderly.unregister (h : s.Orderly ending) (id : Nat) :
    (s.unregister id).Orderly (insert id ending) := by
  refine ⟨h.staffed.of_sublist ?_ ?_, ⟨?_, ?_, ?_, h.recorded.bare⟩, ?_⟩
  · rw [owned_unregister]
    exact List.filter_sublist
  · intro j hj hregistered
    rw [owned_unregister, List.mem_filter] at hj
    exact isRegistered_unregister.2 ⟨hregistered, of_decide_eq_true hj.2⟩
  · intro j hj
    exact h.recorded.alive j (isRegistered_unregister.1 hj).1
  · intro j p hp hhalted
    by_cases heq : j = id
    · exact .inr (.inl heq)
    · refine (h.recorded.registered j p hp hhalted).imp ?_ .inr
      exact fun hj => isRegistered_unregister.2 ⟨hj, heq⟩
  · rintro j (rfl | hj) hregistered
    · exact (isRegistered_unregister.1 hregistered).2 rfl
    · exact h.recorded.left j hj (isRegistered_unregister.1 hregistered).1
  · exact h.related.congr rfl (Nat.le_refl _)

theorem follows_unregister (s : System) (id : Nat) : s.Follows (s.unregister id) :=
  follows_of_eq rfl (Nat.le_refl _)

/-- What is halted is no longer about to be. -/
theorem Orderly.shrink (h : s.Orderly ending) {fewer : Set Nat}
    (hdone : ∀ p, s.process? id = some p → p.halted = true) (hfewer : fewer ⊆ ending)
    (hending : ending ⊆ insert id fewer) : s.Orderly fewer := by
  refine ⟨h.staffed, ⟨h.recorded.alive, ?_, fun j hj => h.recorded.left j (hfewer hj),
    h.recorded.bare⟩, h.related⟩
  intro j p hp hhalted
  refine (h.recorded.registered j p hp hhalted).imp_right fun hj => (hending hj).resolve_left ?_
  rintro rfl
  rw [hdone p hp] at hhalted
  contradiction

/-- A process that has left the registry is halted. The set of those that are ending may lose it. -/
theorem Orderly.halt (h : s.Orderly ending) {fewer : Set Nat} (hid : ¬ s.IsRegistered id)
    (hfewer : fewer ⊆ ending) (hending : ending ⊆ insert id fewer) :
    (s.modifyProcess id (·.halt)).Orderly fewer ∧ s.Follows (s.modifyProcess id (·.halt)) := by
  refine ⟨⟨h.staffed.congr rfl rfl, ⟨?_, ?_, ?_, ?_⟩, h.related.modify ?_⟩, follows_modify ?_⟩
  · intro j hj
    have hne : id ≠ j := by
      rintro rfl
      exact hid hj
    obtain ⟨p, hp, hhalted⟩ := h.recorded.alive j hj
    refine ⟨p, ?_, hhalted⟩
    rw [process?_modify_of_eq_some hp, if_neg hne]
  · -- The process itself is halted now; any other that is not registered is still about to be.
    intro j q hq hhalted
    rcases process?_modify_eq_some hq with ⟨rfl, p, hp, rfl⟩ | ⟨hne, hq⟩
    · contradiction
    · refine (h.recorded.registered j q hq hhalted).imp_right fun hj => ?_
      exact (hending hj).resolve_left hne
  · exact fun j hj => h.recorded.left j (hfewer hj)
  · intro j q hq hhalted
    rcases process?_modify_eq_some hq with ⟨rfl, p, hp, rfl⟩ | ⟨-, hq⟩
    · exact ⟨rfl, rfl, rfl⟩
    · exact h.recorded.bare j q hq hhalted
  · exact fun p _ => ⟨rfl, rfl⟩
  · exact fun p _ => ⟨fun _ => rfl, List.prefix_refl _⟩

/-! ### Workers -/

theorem nodup_flatMap_owned {workers : List Worker} :
    (workers.flatMap (·.owned)).Nodup ↔ (∀ w ∈ workers, w.owned.Nodup) ∧
      workers.Pairwise fun v w => v.owned.Disjoint w.owned :=
  List.nodup_flatMap

theorem nodup_owned_assign {w : Worker} (h : w.owned.Nodup) (id : Nat) :
    (w.assign id).owned.Nodup := by
  rw [Worker.assign]
  split
  · exact h
  · rename_i hnew
    rw [← List.concat_eq_append]
    exact h.concat hnew

/-- What a worker owns after an assignment. -/
theorem mem_owned_moved {w : Worker} {i index c : Nat} :
    c ∈ (if i = index then w.assign id else w.remove id).owned ↔
      c ∈ w.owned ∧ c ≠ id ∨ i = index ∧ c = id := by
  by_cases hi : i = index
  · rw [if_pos hi, Worker.mem_owned_assign]
    by_cases hc : c = id <;> simp [hi, hc]
  · rw [if_neg hi, Worker.mem_owned_remove]
    simp [hi]

/-- Whoever owned a process before, after an assignment only the one worker does. -/
theorem nodup_assignTo {workers : List Worker} (h : (workers.flatMap (·.owned)).Nodup)
    (index id : Nat) : ((Kernel.assignTo index id workers).flatMap (·.owned)).Nodup := by
  obtain ⟨hnodup, hdisjoint⟩ := nodup_flatMap_owned.1 h
  refine nodup_flatMap_owned.2 ⟨?_, ?_⟩
  · intro w hw
    obtain ⟨i, hi, rfl⟩ := List.mem_mapIdx.1 hw
    split
    · exact nodup_owned_assign (hnodup _ (List.getElem_mem _)) id
    · exact (hnodup _ (List.getElem_mem _)).filter _
  · -- Two workers own the same process only if it is the assigned one and both are the same worker.
    rw [List.pairwise_iff_getElem] at hdisjoint ⊢
    intro i j hi hj hlt c hc hc'
    rw [Kernel.length_assignTo] at hi hj
    simp only [Kernel.assignTo, List.getElem_mapIdx] at hc hc'
    rcases mem_owned_moved.1 hc with ⟨hold, hne⟩ | ⟨hindex, heq⟩
    · rcases mem_owned_moved.1 hc' with ⟨hold', -⟩ | ⟨-, heq⟩
      · exact hdisjoint i j hi hj hlt hold hold'
      · exact hne heq
    · rcases mem_owned_moved.1 hc' with ⟨-, hne⟩ | ⟨hindex', -⟩
      · exact hne heq
      · omega

theorem Orderly.assign (h : s.Orderly ending) (hid : s.IsRegistered id) (index : Nat) :
    ({ s with workers := Kernel.assignTo index id s.workers } : System).Orderly ending := by
  refine ⟨⟨?_, nodup_assignTo h.staffed.nodup index id⟩, h.recorded.congr rfl rfl,
    h.related.congr rfl (Nat.le_refl _)⟩
  intro c hc
  obtain ⟨w, hw, hc⟩ := List.mem_flatMap.1 hc
  obtain ⟨i, hi, rfl⟩ := List.mem_mapIdx.1 hw
  rcases mem_owned_moved.1 hc with ⟨hold, -⟩ | ⟨-, rfl⟩
  · exact h.staffed.registered c (List.mem_flatMap.2 ⟨_, List.getElem_mem _, hold⟩)
  · exact hid

theorem sublist_owned_modify {f : Worker → Worker} (hf : ∀ w, (f w).owned.Sublist w.owned)
    (workers : List Worker) (index : Nat) :
    ((workers.modify index f).flatMap (·.owned)).Sublist (workers.flatMap (·.owned)) := by
  induction workers generalizing index with
  | nil => rw [List.modify_nil]
  | cons w rest ih =>
    cases index with
    | zero => exact (hf w).append (List.Sublist.refl _)
    | succ index => exact (List.Sublist.refl w.owned).append (ih index)

/-- A worker may lose processes, and whatever else becomes of it. -/
theorem Orderly.modifyWorker (h : s.Orderly ending) {f : Worker → Worker}
    (hf : ∀ w, (f w).owned.Sublist w.owned) (index : Nat) :
    (s.modifyWorker index f).Orderly ending :=
  ⟨h.staffed.of_sublist (sublist_owned_modify hf _ _) fun _ _ hid => hid, h.recorded.congr rfl rfl,
    h.related.congr rfl (Nat.le_refl _)⟩

end System

end BytecodeKernel
