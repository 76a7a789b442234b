import BytecodeKernel.Proofs.Kernel.Operations
/-!
Histories of a kernel: any operations in any order, from the kernel's creation on, each of which may
be refused. After every history the registry, the workers and the family of the processes agree, and
nothing that came before is taken back.
-/

namespace BytecodeKernel

/-- Registry, workers and records agree with each other. -/
structure System.Consistent (s : System) : Prop where
  owned_registered : ∀ w ∈ s.workers, ∀ id ∈ w.owned, s.IsRegistered id
  owned_once : ∀ w ∈ s.workers, w.owned.Nodup
  owned_apart : s.workers.Pairwise fun v w => v.owned.Disjoint w.owned
  registered_iff : ∀ id, s.IsRegistered id ↔ ∃ p, s.process? id = some p ∧ p.halted = false
  halted_bare : ∀ id p, s.process? id = some p → p.halted → p.Bare
  named : ∀ id p, s.process? id = some p → p.id = id ∧ id < s.nextId
  children_behind : ∀ id p, s.process? id = some p → ∀ c ∈ p.children, id < c
  children_once : ∀ id p, s.process? id = some p → p.children.Nodup
  children_apart : ∀ i p j q, s.process? i = some p → s.process? j = some q → i ≠ j →
    p.children.Disjoint q.children

theorem System.Orderly.consistent {s : System} (h : s.Orderly ∅) : s.Consistent where
  owned_registered w hw id hid := h.staffed.registered id (List.mem_flatMap.2 ⟨w, hw, hid⟩)
  owned_once := (System.nodup_flatMap_owned.1 h.staffed.nodup).1
  owned_apart := (System.nodup_flatMap_owned.1 h.staffed.nodup).2
  registered_iff id := by
    constructor
    · exact h.recorded.alive id
    · rintro ⟨p, hp, hhalted⟩
      exact (h.recorded.registered id p hp hhalted).resolve_right (Set.notMem_empty id)
  halted_bare := h.recorded.bare
  named := h.related.named
  children_behind id p hp c hc := (h.related.between id p hp c hc).1
  children_once := h.related.nodup
  children_apart := h.related.apart

theorem System.Orderly.registered_iff_of_record {s : System} {id : Nat} {p : Process}
    (h : s.Orderly ∅) (hp : s.process? id = some p) : s.IsRegistered id ↔ p.halted = false := by
  rw [h.consistent.registered_iff]
  constructor
  · rintro ⟨q, hq, halive⟩
    obtain rfl := Option.some.inj (hp.symm.trans hq)
    exact halive
  · exact fun halive => ⟨p, hp, halive⟩

namespace Kernel

/-- An operation of a kernel, of one of its workers, or of a process that someone holds. -/
inductive Op where
  | generate (parent : Option Nat)
  | spawnChild (parent : Nat)
  | bindProgram (id : Nat) (bytes : List UInt8)
  /-- Whoever binds the image may have `kept` another handle of it. -/
  | bindImage (id : Nat) (image : Image) (kept : Bool)
  | dispatch (id : Nat)
  | execute (id budget : Nat)
  | halt (id : Nat)
  | haltSubtree (id : Nat)
  | close (id : Nat)
  | closeSubtree (id : Nat)
  | hang (id : Nat)
  | wake (id : Nat)
  | tick (id : Nat)
  | setPriority (id priority : Nat)
  | setName (id : Nat) (name : List UInt8)
  | sleepWorker (index : Nat)
  | wakeWorker (index : Nat)
  | setWorkerPriority (index priority : Nat)
  | workerPass (index : Nat)
  | runPass
  | runUntilIdle (limit : Nat)
  | shutdown

/-- The kernel after an operation, whether it was refused or not. -/
def perform (k : Kernel) : Op → Kernel
  | .generate parent => reached (generate parent k)
  | .spawnChild parent => reached (generate (some parent) k)
  | .bindProgram id bytes => reached (bindProgram id bytes k)
  | .bindImage id image kept => reached (bindImage id image kept k)
  | .dispatch id => reached (dispatch id k)
  | .execute id budget => (execute id budget k).2
  | .halt id => reached (halt id k)
  | .haltSubtree id => reached (haltSubtree id k)
  | .close id => close id k
  | .closeSubtree id => closeSubtree id k
  | .hang id => (k.1.modifyProcess id (·.hang), k.2)
  | .wake id => (k.1.modifyProcess id (·.wake), k.2)
  | .tick id => (k.1.modifyProcess id (·.tick), k.2)
  | .setPriority id priority => (k.1.modifyProcess id ({ · with priority }), k.2)
  | .setName id name => (k.1.modifyProcess id ({ · with name }), k.2)
  | .sleepWorker index => (k.1.modifyWorker index ({ · with awake := false }), k.2)
  | .wakeWorker index => (k.1.modifyWorker index ({ · with awake := true }), k.2)
  | .setWorkerPriority index priority => (k.1.modifyWorker index ({ · with priority }), k.2)
  | .workerPass index => (workerPass index k).2
  | .runPass => (runPass k).2
  | .runUntilIdle limit => (runUntilIdle limit k).2
  | .shutdown => shutdown k

def performAll (k : Kernel) (ops : List Op) : Kernel :=
  ops.foldl perform k

variable {start : System} {k : Kernel}

/-- What the actions keep that operations are made of, every operation keeps. To bind an image that
a client made is an action of its own. -/
theorem Upholds.perform {P : Kernel → Prop} (hP : Upholds P) (h : P k) (op : Op)
    (hbind : ∀ id image kept, op = .bindImage id image kept →
      Preserves P (bindImage id image kept)) :
    P (Kernel.perform k op) := by
  cases op with
  | generate parent => exact (hP.generate parent).reached h
  | spawnChild parent => exact (hP.generate (some parent)).reached h
  | bindProgram id bytes => exact (hP.bindProgram id bytes).reached h
  | bindImage id image kept => exact (hbind id image kept rfl).reached h
  | dispatch id => exact (hP.dispatch id).reached h
  | execute id budget => exact hP.execute id budget k h
  | halt id => exact (hP.halt id).reached h
  | haltSubtree id => exact (hP.haltSubtree id).reached h
  | close id => exact hP.close h id
  | closeSubtree id => exact hP.closeSubtree h id
  | hang id => exact hP.relabel k id _ h Process.relabels_hang
  | wake id => exact hP.relabel k id _ h Process.relabels_wake
  | tick id => exact hP.tick h id
  | setPriority id priority => exact hP.relabel k id _ h fun p => p.relabels_rename priority p.name
  | setName id name => exact hP.relabel k id _ h fun p => p.relabels_rename p.priority name
  | sleepWorker index | wakeWorker index | setWorkerPriority index priority =>
    exact hP.worker k index _ h fun w => List.Sublist.refl _
  | workerPass index => exact hP.workerPass index k h
  | runPass => exact hP.runPass k h
  | runUntilIdle limit => exact hP.runMore 0 limit k h
  | shutdown => exact hP.shutdown h

theorem Tracks.perform (h : Tracks ∅ start k) (op : Op) : Tracks ∅ start (Kernel.perform k op) :=
  (upholds_tracks start).perform h op fun id image kept _ =>
    preserves_bindImage id image kept

theorem Tracks.performAll (h : Tracks ∅ start k) (ops : List Op) :
    Tracks ∅ start (Kernel.performAll k ops) := by
  induction ops generalizing k with
  | nil => exact h
  | cons op rest ih => exact ih (h.perform op)

/-- A kernel begins without processes. -/
theorem create_eq_ok {settings : Settings} (hk : Kernel.create settings = .ok k) :
    k.1.registry = {} ∧ k.1.processes = {} ∧ ∀ w ∈ k.1.workers, w.owned = [] := by
  obtain ⟨s, hs, heq⟩ := ok_of_bind hk
  cases heq
  obtain ⟨storage, rfl⟩ := System.create_eq_ok hs
  exact ⟨rfl, rfl, fun w hw => by rw [List.eq_of_mem_replicate hw]⟩

theorem orderly_create {settings : Settings} (hk : Kernel.create settings = .ok k) :
    k.1.Orderly ∅ := by
  obtain ⟨hregistry, hprocesses, hworkers⟩ := create_eq_ok hk
  have hnone : ∀ id p, k.1.process? id ≠ some p := by
    intro id p hp
    rw [System.process?, hprocesses] at hp
    simp at hp
  have hunregistered : ∀ id, ¬ k.1.IsRegistered id := by
    intro id hid
    rw [System.IsRegistered, hregistry] at hid
    simp at hid
  have howned : k.1.owned = [] := List.flatMap_eq_nil_iff.2 hworkers
  refine ⟨⟨?_, ?_⟩, ⟨?_, ?_, ?_, ?_⟩, ⟨?_, ?_, ?_, ?_⟩⟩
  · exact fun id hid => absurd (howned ▸ hid) List.not_mem_nil
  · exact howned ▸ List.nodup_nil
  · exact fun id hid => absurd hid (hunregistered id)
  · exact fun id p hp => absurd hp (hnone id p)
  · exact fun id hid => absurd hid (Set.notMem_empty id)
  · exact fun id p hp => absurd hp (hnone id p)
  · exact fun id p hp => absurd hp (hnone id p)
  · exact fun id p hp => absurd hp (hnone id p)
  · exact fun id p hp => absurd hp (hnone id p)
  · exact fun i p j q hp => absurd hp (hnone i p)

theorem performAll_append (k : Kernel) (ops later : List Op) :
    performAll k (ops ++ later) = performAll (performAll k ops) later :=
  List.foldl_append

/-- A process that was created is on record ever after. -/
theorem exists_process?_of_generate {parent : Option Nat} {id : Nat} {k' : Kernel}
    (hk : k.1.Orderly ∅) (hgenerate : generate parent k = .ok id k') :
    id = k.1.nextId ∧ k.1.process? id = none ∧ k'.1.process? id ≠ none := by
  have hend := hoare_generate (s := k.1) parent k rfl
  rw [hgenerate] at hend
  obtain ⟨rfl, context, heq⟩ := hend
  refine ⟨rfl, hk.related.process?_nextId, ?_⟩
  rw [heq]
  exact System.process?_entered_ne_none_iff.2 (.inl rfl)

/-- After every history the kernel is consistent, and what it handed out stays handed out. A process
that was ever created is on record, and registered for as long as it is not halted. -/
theorem consistent_performAll {settings : Settings} (hk : Kernel.create settings = .ok k)
    (ops later : List Op) :
    (performAll k ops).1.Consistent ∧
      (performAll k ops).1.Follows (performAll k (ops ++ later)).1 ∧
      ∀ parent id k', generate parent (performAll k ops) = .ok id k' →
        id = (performAll k ops).1.nextId ∧ (performAll k ops).1.process? id = none ∧
          ∃ p, (performAll k' later).1.process? id = some p ∧
            ((performAll k' later).1.IsRegistered id ↔ p.halted = false) := by
  have hbegin := orderly_create hk
  have hops : Tracks ∅ k.1 (performAll k ops) := Tracks.performAll ⟨hbegin, .refl _⟩ ops
  refine ⟨hops.orderly.consistent, ?_, ?_⟩
  · rw [performAll_append]
    exact (Tracks.performAll ⟨hops.orderly, .refl _⟩ later).follows
  · intro parent id k' hgenerate
    obtain ⟨hid, hnone, hsome⟩ := exists_process?_of_generate hops.orderly hgenerate
    -- From its creation on the record of the process is kept.
    have hcreated : Tracks ∅ k'.1 k' := by
      have hreached := (preserves_generate parent).reached hops
      rw [hgenerate] at hreached
      exact ⟨hreached.orderly, .refl _⟩
    have hend := hcreated.performAll later
    obtain ⟨p, hp⟩ := Option.ne_none_iff_exists'.1 hsome
    obtain ⟨q, hq, -⟩ := hend.follows.kept id p hp
    refine ⟨hid, hnone, q, hq, ?_⟩
    rw [hend.orderly.consistent.registered_iff]
    constructor
    · rintro ⟨r, hr, hhalted⟩
      rw [hq] at hr
      exact Option.some.inj hr ▸ hhalted
    · exact fun hhalted => ⟨q, hq, hhalted⟩

/-! ### A family that ends as a whole -/

def familySettings : Settings where
  arenaBytes := 65536
  maxArenaBytes := 65536
  workers := 2
  priorityBudget := 2000
  heapBytes := 64
  stackBytes := 64
  maxProcesses := 8

def familyKernel : Kernel :=
  ({ settings := familySettings
     workers := [{ priority := 1000 }, { priority := 1000 }]
     console := {} }, .withLimit 65536 65536)

/-- Spawns a child, gives it the end of this program, dispatches it and halts the subtree. -/
def familyProgram : List UInt8 :=
  [2, 0, 0, 0, 50, 0, 0, 3, 0, 0, 0, 18, 0, 0, 0, 0, 1, 4, 0, 0, 0, 0, 0, 127]

def familyHistory : List Op :=
  [.generate none, .bindProgram 0 familyProgram, .dispatch 0, .sleepWorker 1, .runPass]

def succeeds {ε σ α : Type} : EStateM.Result ε σ α → Bool
  | .ok .. => true
  | .error .. => false

theorem exists_of_succeeds {ε σ α : Type} {x : EStateM.Result ε σ α} (h : succeeds x) :
    ∃ v s, x = .ok v s := by
  cases x with
  | ok v s => exact ⟨v, s, rfl⟩
  | error e s => contradiction

/-- Parent and child have come and gone in one pass. The next process is neither of them, and halted
like all others when the kernel is shut down. -/
theorem consistent_familyHistory :
    Kernel.create familySettings = .ok familyKernel ∧
      (performAll familyKernel familyHistory).1.childrenOf 0 = [1] ∧
      (performAll familyKernel familyHistory).1.Consistent ∧
      (performAll familyKernel familyHistory).1.Follows
        (performAll familyKernel (familyHistory ++ [.shutdown])).1 ∧
      ∃ k', generate none (performAll familyKernel familyHistory) = .ok 2 k' ∧
        ∃ p, (performAll k' [.shutdown]).1.process? 2 = some p ∧
          ((performAll k' [.shutdown]).1.IsRegistered 2 ↔ p.halted = false) := by
  have hcreate : Kernel.create familySettings = .ok familyKernel := rfl
  obtain ⟨hconsistent, hfollows, hgenerated⟩ :=
    consistent_performAll hcreate familyHistory [.shutdown]
  refine ⟨hcreate, by decide +kernel, hconsistent, hfollows, ?_⟩
  obtain ⟨id, k', hgenerate⟩ := exists_of_succeeds
    (x := generate none (performAll familyKernel familyHistory)) (by decide +kernel)
  obtain ⟨hid, -, hrecord⟩ := hgenerated none id k' hgenerate
  have hcounter : (performAll familyKernel familyHistory).1.nextId = 2 := by decide +kernel
  rw [hid.trans hcounter] at hgenerate hrecord
  exact ⟨k', hgenerate, hrecord⟩

end Kernel

end BytecodeKernel
