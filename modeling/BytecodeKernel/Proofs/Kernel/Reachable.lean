import BytecodeKernel.Proofs.Kernel.Histories
import BytecodeKernel.Proofs.Kernel.Leases
import BytecodeKernel.Proofs.Kernel.Teardown
import BytecodeKernel.Proofs.Machine.Clients
/-!
The states that a kernel can be brought to. A client may ask for every operation in any order. It
may also use the arena itself, as long as it keeps to the blocks it holds, and hand a program in a
block of its own over to a process. In every such state the accounts are right: the live blocks are
those of the registered processes, one for each program that one of them has, and what the client
holds.
-/

namespace BytecodeKernel

namespace Kernel

/-- To bind an image that a client made is an action of its own. -/
def Op.IsBindImage : Op → Prop
  | .bindImage .. => True
  | _ => False

/-- The states of a kernel, each with the blocks that its client holds then. -/
inductive Reachable : List (Nat × Nat) → Kernel → Prop
  | create {settings : Settings} {k : Kernel} (hk : Kernel.create settings = .ok k) :
    Reachable [] k
  | perform {held : List (Nat × Nat)} {k : Kernel} (h : Reachable held k) (op : Op)
    (hop : ¬ op.IsBindImage) : Reachable held (Kernel.perform k op)
  /-- What the kernel prints to and keeps its cells in can be changed from outside. -/
  | outside {held : List (Nat × Nat)} {k : Kernel} (h : Reachable held k) (keepAlive : Bool)
    (console : Console) (storage : Option CellStore) :
    Reachable held ({ k.1 with keepAlive, console, storage }, k.2)
  /-- A call of the arena that keeps to the blocks of the client. -/
  | call {held : List (Nat × Nat)} {k : Kernel} (h : Reachable held k) (call : Arena.Call)
    (hkeeps : call.KeepsTo k.2 held) : Reachable (call.hold k.2 held) (k.1, k.2.perform call)
  /-- A program in a block of the client, which keeps no handle of it, passes to a process. If it is
  refused its block is freed. -/
  | bindHeld {held : List (Nat × Nat)} {k : Kernel} (h : Reachable held k) (id : Nat)
    (image : Image) (hheld : image.region ∈ held) :
    Reachable (held.erase image.region) (Kernel.perform k (.bindImage id image false))
  /-- A process gets a program that some process has. -/
  | bindShared {held : List (Nat × Nat)} {k : Kernel} (h : Reachable held k) (id : Nat)
    (image : Image) (kept : Bool) (hshared : image.region ∈ k.1.programs) :
    Reachable held (Kernel.perform k (.bindImage id image kept))

variable {held : List (Nat × Nat)} {k : Kernel}

/-- Whatever operations are asked for, one after the other. -/
theorem Reachable.performAll (h : Reachable held k) {ops : List Op}
    (hops : ∀ op ∈ ops, ¬ op.IsBindImage) : Reachable held (performAll k ops) := by
  induction ops generalizing k with
  | nil => exact h
  | cons op rest ih =>
    exact ih (h.perform op (hops op List.mem_cons_self)) fun next hnext =>
      hops next (List.mem_cons_of_mem _ hnext)

theorem housed_create {settings : Settings} (hk : Kernel.create settings = .ok k) :
    Housed none [] k := by
  obtain ⟨-, hprocesses, -⟩ := create_eq_ok hk
  have hnone : ∀ id, k.1.process? id = none := by
    intro id
    rw [System.process?, hprocesses]
    simp
  obtain ⟨s, -, heq⟩ := ok_of_bind hk
  cases heq
  have hempty : s.processes = {} := hprocesses
  constructor
  · refine ⟨Arena.sound_withLimit _ _, ?_⟩
    have hregions : s.regions none = [] := by
      rw [System.regions, System.rooms, System.programs, hempty]
      rfl
    rw [hregions]
    show ((Blocks.ofSize 1 _).liveBlocks).Perm []
    rw [Blocks.liveBlocks_ofSize]
  · refine ⟨?_, ?_, fun id hid => by simp at hid, ?_, fun id _ => hnone id⟩
    · exact fun id p c hp => absurd (hp.symm.trans (hnone id)) (Option.some_ne_none p)
    · exact fun id p hp => absurd (hp.symm.trans (hnone id)) (Option.some_ne_none p)
    · exact fun id p hp => absurd (hp.symm.trans (hnone id)) (Option.some_ne_none p)

theorem Reachable.housed (h : Reachable held k) : Housed none held k := by
  induction h with
  | create hk => exact housed_create hk
  | @perform held k _ op hop ih =>
    refine (upholds_housed held).perform ih op fun id image kept heq => ?_
    rw [heq] at hop
    exact absurd trivial hop
  | outside _ keepAlive console storage ih => exact ih.congr rfl (Nat.le_refl _)
  | @call held k _ call hkeeps ih =>
    have howns := ih.owns.perm (List.perm_append_comm)
    exact ih.withArena ((howns.perform hkeeps).1.perm List.perm_append_comm)
  | @bindHeld held k _ id image hheld ih =>
    exact (ih.reorder (List.perm_cons_erase hheld)).bindImage_held id
  | bindShared _ id image kept hshared ih => exact ih.bindImage_shared hshared id kept

theorem Reachable.orderly (h : Reachable held k) : k.1.Orderly ∅ := by
  induction h with
  | create hk => exact orderly_create hk
  | perform _ op _ ih => exact (Tracks.perform ⟨ih, .refl _⟩ op).orderly
  | outside _ keepAlive console storage ih => exact ih.congr rfl rfl rfl (Nat.le_refl _)
  | call _ _ _ ih => exact ih
  | bindHeld _ id image _ ih =>
    exact (Tracks.perform ⟨ih, .refl _⟩ (.bindImage id image false)).orderly
  | bindShared _ id image kept _ ih =>
    exact (Tracks.perform ⟨ih, .refl _⟩ (.bindImage id image kept)).orderly

end Kernel

/-! ### Accounts of the registered processes -/

/-- The registered processes with their records. -/
def System.registered (s : System) : List (Nat × Process) :=
  s.registry.toList.filterMap fun id => (s.process? id).map (id, ·)

namespace System

variable {s : System}

theorem mem_registered {e : Nat × Process} :
    e ∈ s.registered ↔ s.IsRegistered e.1 ∧ s.process? e.1 = some e.2 := by
  rw [registered, List.mem_filterMap]
  constructor
  · rintro ⟨id, hid, heq⟩
    obtain ⟨p, hp, rfl⟩ := Option.map_eq_some_iff.1 heq
    exact ⟨Std.TreeSet.mem_toList.1 hid, hp⟩
  · rintro ⟨hid, hp⟩
    exact ⟨e.1, Std.TreeSet.mem_toList.2 hid, by rw [hp]; rfl⟩

theorem nodup_registered : s.registered.Nodup := by
  refine List.Nodup.filterMap ?_ ?_
  · intro i j e hi hj
    obtain ⟨p, -, rfl⟩ := Option.map_eq_some_iff.1 hi
    obtain ⟨q, -, heq⟩ := Option.map_eq_some_iff.1 hj
    exact (Prod.mk.inj heq).1.symm
  · refine (Std.TreeSet.distinct_toList (t := s.registry)).imp ?_
    rintro i j hne rfl
    simp at hne

/-- The records that are not halted are those of the registered processes. -/
theorem registered_perm (h : s.Orderly ∅) :
    s.registered.Perm (s.processes.toList.filter fun e => ! e.2.halted) := by
  refine (List.perm_ext_iff_of_nodup nodup_registered ((nodup_toList _).filter _)).2 fun e => ?_
  rw [mem_registered, List.mem_filter, mem_processes_toList, h.consistent.registered_iff]
  constructor
  · rintro ⟨⟨p, hp, halive⟩, he⟩
    obtain rfl := Option.some.inj (hp.symm.trans he)
    exact ⟨he, by simp [halive]⟩
  · rintro ⟨he, halive⟩
    exact ⟨⟨e.2, he, by simpa using halive⟩, he⟩

theorem roomsOn_filter {records : List (Nat × Process)}
    (h : ∀ e ∈ records, e.2.halted = true → e.2.Bare) :
    roomsOn none (records.filter fun e => ! e.2.halted) = roomsOn none records := by
  induction records with
  | nil => rfl
  | cons e rest ih =>
    have hrest := ih fun f hf => h f (List.mem_cons_of_mem _ hf)
    obtain ⟨id, p⟩ := e
    cases hhalted : p.halted with
    | false => rw [List.filter_cons_of_pos (by simp [hhalted]), roomsOn_cons (by simp),
        roomsOn_cons (by simp), hrest]
    | true =>
      have hnone := (h (id, p) List.mem_cons_self hhalted).context
      rw [List.filter_cons_of_neg (by simp [hhalted]), roomsOn_cons (by simp), hrest,
        Process.rooms, hnone]
      rfl

theorem programsOn_filter {records : List (Nat × Process)}
    (h : ∀ e ∈ records, e.2.halted = true → e.2.Bare) :
    programsOn (records.filter fun e => ! e.2.halted) = programsOn records := by
  rw [programsOn, List.filterMap_filter, programsOn]
  congr 1
  refine List.filterMap_congr fun e he => ?_
  cases hhalted : e.2.halted with
  | false => rfl
  | true =>
    rw [Process.program?, (h e he hhalted).image]
    rfl

/-- Halted processes hold nothing, so the registered ones hold all. -/
theorem regions_perm_registered (h : s.Orderly ∅) :
    (s.regions none).Perm (roomsOn none s.registered ++ programsOn s.registered) := by
  have hbare : ∀ e ∈ s.processes.toList, e.2.halted = true → e.2.Bare := fun e he hhalted =>
    h.recorded.bare e.1 e.2 (mem_processes_toList.1 he) hhalted
  have hperm := registered_perm h
  rw [regions, rooms, programs, ← roomsOn_filter hbare, ← programsOn_filter hbare]
  exact (roomsOn_perm none hperm.symm).append (programsOn_perm hperm.symm)

end System

end BytecodeKernel
