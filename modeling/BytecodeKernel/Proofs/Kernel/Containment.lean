import BytecodeKernel.Proofs.Kernel.Credits
import BytecodeKernel.Proofs.Kernel.Reachable
import BytecodeKernel.Proofs.Machine.Contents
/-!
Containment. Whatever the program of a process does and however its quantum ends, the processes that
are taken off the registry are those that the end calls for: all below it after a fault or a
recursive halt, itself alone after a plain halt, none otherwise. Every other process goes on as it
was.
-/

namespace BytecodeKernel

/-- A process, and what can be reached from it when its quantum is over, through the children of
processes that were registered before or were created meanwhile. -/
inductive Kernel.Below (s t : System) (id : Nat) : Nat → Prop
  | self : Below s t id id
  | child {j c : Nat} (hj : Below s t id j) (hc : c ∈ t.childrenOf j)
      (hregistered : s.IsRegistered c ∨ s.nextId ≤ c) : Below s t id c

/-- The processes that a quantum between two systems takes off the registry. -/
def Quantum.Removes (s t : System) (id j : Nat) : Quantum → Prop
  | .faulted _ | .halted true => Kernel.Below s t id j
  | .halted false => j = id
  | .idle | .yielded | .finished => False

namespace Kernel

variable {held : List (Nat × Nat)} {image : Image} {s t u : System} {k k' : Kernel} {id j : Nat}
  {m : Machine System} {start : Kernel}

/-! ### The end of a quantum -/

/-- What a process takes with it that ends in this way. -/
def Takes (s : System) (id j : Nat) : Quantum → Prop
  | .faulted _ | .halted true => Descends s id j
  | .halted false => j = id
  | .idle | .yielded | .finished => False

/-- Those that are taken have ended; the others have their records, but for the process itself. -/
structure Settled (taken : Nat → Prop) (id : Nat) (s t : System) : Prop where
  counter : t.nextId = s.nextId
  registered : ∀ j, t.IsRegistered j ↔ s.IsRegistered j ∧ ¬ taken j
  halted : ∀ j, taken j → t.process? j = (s.process? j).map (·.halt)
  others : ∀ j, j ≠ id → ¬ taken j → t.process? j = s.process? j ∧ t.owner? j = s.owner? j
  children : ∀ j, t.childrenOf j = s.childrenOf j
  filed : ∀ j, t.process? j = none ↔ s.process? j = none

theorem descends_congr (hchildren : ∀ j, t.childrenOf j = s.childrenOf j)
    (hregistered : ∀ j, t.IsRegistered j ↔ s.IsRegistered j) :
    Descends t id j ↔ Descends s id j := by
  constructor
  · intro h
    induction h with
    | self => exact .self
    | child _ hc hregistered' ih =>
      exact .child ih (hchildren _ ▸ hc) ((hregistered _).1 hregistered')
  · intro h
    induction h with
    | self => exact .self
    | child _ hc hregistered' ih =>
      exact .child ih ((hchildren _).symm ▸ hc) ((hregistered _).2 hregistered')

/-- A process is hung, and what it takes ends. -/
theorem Ended.settled {taken : Nat → Prop} (h : Ended taken (s.modifyProcess id (·.hang)) t) :
    Settled taken id s t where
  counter := h.counter
  registered := h.registered
  halted j hj := by
    rw [h.halted j hj, System.process?_modifyProcess]
    split
    · rename_i heq
      rw [heq, Option.map_map]
      rfl
    · rfl
  others j hne hj := by
    obtain ⟨hrecord, howner⟩ := h.others j hj
    rw [System.process?_modifyProcess, if_neg (Ne.symm hne)] at hrecord
    exact ⟨hrecord, howner⟩
  children j := by
    have hhung : (s.modifyProcess id (·.hang)).childrenOf j = s.childrenOf j :=
      childrenOf_modifyProcess (f := (·.hang)) (fun _ => rfl) j
    rw [← hhung]
    by_cases hj : taken j
    · exact childrenOf_eq_of_map (f := (·.halt)) (fun _ => rfl) (h.halted j hj)
    · rw [System.childrenOf, System.childrenOf, (h.others j hj).1]
  filed j := by
    have hhung : (s.modifyProcess id (·.hang)).process? j = none ↔ s.process? j = none := by
      rw [System.process?_modifyProcess]
      split
      · rename_i heq
        rw [heq, Option.map_eq_none_iff]
      · rfl
    rw [← hhung]
    by_cases hj : taken j
    · rw [h.halted j hj, Option.map_eq_none_iff]
    · rw [(h.others j hj).1]

theorem settled_of_hung {taken : Nat → Prop} (hnone : ∀ j, ¬ taken j) (id : Nat) (s : System) :
    Settled taken id s (s.modifyProcess id (·.hang)) :=
  Ended.settled ⟨rfl, fun j => by simp [hnone j], fun j hj => absurd hj (hnone j),
    fun _ _ => ⟨rfl, rfl⟩⟩

theorem settled_settle (hs : k.1.Orderly ∅) (hid : k.1.IsRegistered id) (quantum : Quantum) :
    Settled (fun j => Takes k.1 id j quantum) id k.1 (settle id quantum k).1 := by
  have hhung : (k.1.modifyProcess id (·.hang)).Orderly ∅ :=
    (hs.modify fun p _ => p.relabels_hang.quiet).1
  have hsubtree : Settled (Descends k.1 id) id k.1
      (reached (haltSubtree id (k.1.modifyProcess id (·.hang), k.2))).1 := by
    have hended := (ended_haltSubtree (k := (k.1.modifyProcess id (·.hang), k.2)) hhung hid).settled
    have hsame : Descends (k.1.modifyProcess id (·.hang)) id = Descends k.1 id := by
      funext j
      exact propext
        (descends_congr (childrenOf_modifyProcess (f := (·.hang)) fun _ => rfl) fun _ => .rfl)
    exact hsame ▸ hended
  cases quantum with
  | idle | yielded =>
    exact ⟨rfl, by simp [settle, Takes], fun j hj => hj.elim, fun _ _ _ => ⟨rfl, rfl⟩, fun _ => rfl,
      fun _ => .rfl⟩
  | finished => exact settled_of_hung (by simp [Takes]) id k.1
  | faulted fault =>
    rw [settle, attempt_eq_reached]
    exact hsubtree
  | halted recursive =>
    cases recursive with
    | false =>
      rw [settle, attempt_eq_reached]
      exact (ended_halt (k := (k.1.modifyProcess id (·.hang), k.2)) hhung hid).settled
    | true =>
      rw [settle, attempt_eq_reached]
      exact hsubtree

theorem sameBytes_settle (id : Nat) (quantum : Quantum) (k : Kernel) :
    SameBytes k.2 (settle id quantum k).2 := by
  cases quantum with
  | idle | yielded | finished => exact .refl _
  | faulted fault =>
    rw [settle, attempt_eq_reached]
    exact sameBytes_haltSubtree id (k.1.modifyProcess id (·.hang), k.2)
  | halted recursive =>
    cases recursive with
    | false =>
      rw [settle, attempt_eq_reached]
      exact sameBytes_halt id (k.1.modifyProcess id (·.hang), k.2)
    | true =>
      rw [settle, attempt_eq_reached]
      exact sameBytes_haltSubtree id (k.1.modifyProcess id (·.hang), k.2)

/-! ### Who is below -/

/-- At the end of the quantum the tree can still be read off the records, for those that have ended
keep their children. -/
theorem below_iff_descends (hchildren : ∀ j, t.childrenOf j = u.childrenOf j)
    (hregistered : ∀ j, ∀ c ∈ u.childrenOf j,
      (u.IsRegistered c ↔ s.IsRegistered c ∨ s.nextId ≤ c)) :
    Below s t id j ↔ Descends u id j := by
  constructor
  · intro h
    induction h with
    | self => exact .self
    | @child j c _ hc hchild ih =>
      rw [hchildren] at hc
      exact .child ih hc ((hregistered j c hc).2 hchild)
  · intro h
    induction h with
    | self => exact .self
    | @child j c _ hc hchild ih =>
      exact .child ih ((hchildren j).symm ▸ hc) ((hregistered j c hc).1 hchild)

/-- Those that are registered when the process stops were so before or came meanwhile. -/
theorem Running.registered_suspend (hm : Running id image held start m)
    (hs : (Kernel.suspend id m).1.Orderly ∅)
    (hfresh : ∀ j, start.1.nextId ≤ j → start.1.process? j = none) (j : Nat) :
    (Kernel.suspend id m).1.IsRegistered j ↔ start.1.IsRegistered j ∨
      start.1.nextId ≤ j ∧ (Kernel.suspend id m).1.process? j ≠ none := by
  have hleaves := hm.leaves.registered j
  have hsame : (Kernel.suspend id m).1.IsRegistered j ↔ m.host.IsRegistered j := .rfl
  constructor
  · intro hj
    refine (hleaves.1 (hsame.1 hj)).imp_right fun hnew => ⟨hnew.2, ?_⟩
    obtain ⟨p, hp, -⟩ := hs.recorded.alive j hj
    exact hp ▸ Option.some_ne_none p
  · rintro (hj | ⟨hle, hrecord⟩)
    · exact hsame.2 (hleaves.2 (.inl hj))
    · obtain ⟨q, hq⟩ := Option.ne_none_iff_exists'.1 hrecord
      refine (hs.registered_iff_of_record hq).2 ?_
      rcases System.process?_modify_eq_some hq with ⟨rfl, p, hp, rfl⟩ | ⟨-, hq⟩
      · exact hm.leaves.newborn j p (hfresh j hle) hp
      · exact hm.leaves.newborn j q (hfresh j hle) hq

/-! ### What is left alone -/

/-- The process has the record it had, but for a program that it may have got, and finds the same in
its memory. -/
structure Untouched (j : Nat) (k k' : Kernel) : Prop where
  record : ∀ p, k.1.process? j = some p →
    ∃ q, k'.1.process? j = some q ∧ p.Stays q ∧ q.children = p.children
  operands : ∀ p c, k.1.process? j = some p → p.context = some c →
    c.stack.operands k'.2 = c.stack.operands k.2
  heap : ∀ p c, k.1.process? j = some p → p.context = some c →
    (∀ addr length, c.heap.read? k'.2 addr length = c.heap.read? k.2 addr length) ∧
      ∀ addr, c.heap.readBlock k'.2 addr = c.heap.readBlock k.2 addr
  bytes : ∀ p c, k.1.process? j = some p → p.context = some c → Arena.Spares c.regions k.2 k'.2

theorem mem_regions_of_context {lent : Option Nat} {p : Process} {c : Context}
    (hp : s.process? j = some p) (hlent : lent ≠ some j) (hc : p.context = some c) {r : Nat × Nat}
    (hr : r ∈ c.regions) (held : List (Nat × Nat)) : r ∈ s.regions lent ++ held :=
  List.mem_append_left _ (List.mem_append_left _ (System.mem_rooms.2 ⟨j, p, c, hp, hlent, hc, hr⟩))

/-- A process that keeps its record and its bytes finds the same in its memory. -/
theorem Housed.untouched (h : Housed none held k) {held' : List (Nat × Nat)}
    (h' : Housed none held' k')
    (hrecord : ∀ p, k.1.process? j = some p →
      ∃ q, k'.1.process? j = some q ∧ p.Stays q ∧ q.children = p.children)
    (hbytes : ∀ p c, k.1.process? j = some p → p.context = some c →
      Arena.Spares c.regions k.2 k'.2) : Untouched j k k' := by
  have hboth : ∀ p c, k.1.process? j = some p → p.context = some c → ∀ r ∈ c.regions,
      r ∈ k.1.regions none ++ held ∧ r ∈ k'.1.regions none ++ held' ∧
        Arena.Spares [r] k.2 k'.2 := by
    intro p c hp hc r hr
    obtain ⟨q, hq, hstays, -⟩ := hrecord p hp
    refine ⟨mem_regions_of_context hp (by simp) hc hr _,
      mem_regions_of_context hq (by simp) (hstays.context.trans hc) hr _, ?_⟩
    exact (hbytes p c hp hc).subset fun r' hr' => List.mem_singleton.1 hr' ▸ hr
  refine ⟨hrecord, fun p c hp hc => ?_, fun p c hp hc => ?_, hbytes⟩
  · have hmem : c.stack.operandRegion ∈ c.regions :=
      List.mem_cons_of_mem _ List.mem_cons_self
    obtain ⟨hr, hr', hspares⟩ := hboth p c hp hc _ hmem
    have htop := (h.furnished.kept j p c hp (by simp) hc).top_le
    exact Stack.operands_congr htop h.owns hr h'.owns hr' hspares
  · have hmem : c.heap.region ∈ c.regions := List.mem_cons_self
    obtain ⟨hr, hr', hspares⟩ := hboth p c hp hc _ hmem
    exact ⟨Heap.read?_congr h.owns hr h'.owns hr' hspares,
      Heap.readBlock_congr h.owns hr h'.owns hr' hspares⟩

/-- What a quantum of one process, with the given requests, does to the kernel. -/
structure Contained (id : Nat) (quantum : Quantum) (log : List Exchange) (k k' : Kernel) :
    Prop where
  removed : ∀ j, quantum.Removes k.1 k'.1 id j →
    ¬ k'.1.IsRegistered j ∧ ∃ q, k'.1.process? j = some q ∧ q.halted = true
  registered : ∀ j, k'.1.IsRegistered j ↔
    (k.1.IsRegistered j ∨ k.1.nextId ≤ j ∧ k'.1.process? j ≠ none) ∧
      ¬ quantum.Removes k.1 k'.1 id j
  untouched : ∀ j, j ≠ id → k.1.IsRegistered j → ¬ quantum.Removes k.1 k'.1 id j →
    Untouched j k k'
  program : ∀ j p q, j ≠ id → ¬ quantum.Removes k.1 k'.1 id j → k.1.process? j = some p →
    k'.1.process? j = some q → q.image = p.image ∨
      p.image = none ∧ ∃ owner image entry, k.1.process? id = some owner ∧
        owner.image = some image ∧ q.image = some (image.enteredAt entry) ∧
          ⟨.bind j entry, .ok 0⟩ ∈ log
  owner : ∀ j, j ≠ id → ¬ quantum.Removes k.1 k'.1 id j →
    k'.1.owner? j = k.1.owner? j ∨ ⟨.dispatch j, .ok 0⟩ ∈ log

/-- Nothing has changed. -/
theorem Housed.contained_refl (h : Housed none held k) (id : Nat) (log : List Exchange) :
    Contained id .idle log k k where
  removed j hj := hj.elim
  registered j := by
    constructor
    · exact fun hj => ⟨.inl hj, fun hj => hj⟩
    · rintro ⟨hj | ⟨hle, hrecord⟩, -⟩
      · exact hj
      · exact absurd (h.furnished.fresh j hle) hrecord
  untouched j _ _ _ :=
    h.untouched h (fun p hp => ⟨p, hp, .refl p, rfl⟩) fun _ _ _ _ => .refl _ _
  program j p q _ _ hp hq := .inl (Option.some.inj (hp.symm.trans hq) ▸ rfl)
  owner j _ _ := .inl rfl

/-! ### A process that has stopped -/

/-- The kernel in which a process has stopped, and nothing has been done about its end yet. -/
structure Stopped (id : Nat) (image : Image) (held : List (Nat × Nat)) (log : List Exchange)
    (k w : Kernel) : Prop where
  registered : ∀ j, w.1.IsRegistered j ↔
    k.1.IsRegistered j ∨ k.1.nextId ≤ j ∧ w.1.process? j ≠ none
  filed : ∀ j, ∀ c ∈ w.1.childrenOf j, w.1.process? c ≠ none
  stays : ∀ j p, j ≠ id → k.1.process? j = some p →
    ∃ q, w.1.process? j = some q ∧ p.Stays q ∧ q.children = p.children
  spares : Arena.Spares (k.1.regions (some id) ++ held) k.2 w.2
  program : ∀ j p q, j ≠ id → k.1.process? j = some p → w.1.process? j = some q →
    q.image = p.image ∨ p.image = none ∧ ∃ entry, q.image = some (image.enteredAt entry) ∧
      ⟨.bind j entry, .ok 0⟩ ∈ log
  owner : ∀ j, w.1.owner? j = k.1.owner? j ∨ ⟨.dispatch j, .ok 0⟩ ∈ log

theorem Furnished.filed_childrenOf {lent : Option Nat} (h : Furnished lent s) {c : Nat}
    (hc : c ∈ s.childrenOf j) : s.process? c ≠ none := by
  rw [System.childrenOf] at hc
  cases hp : s.process? j with
  | none => simp [hp] at hc
  | some p => exact h.filed j p hp c (by simpa [hp] using hc)

/-- Of the other processes nothing has changed since but what the machine has left. -/
theorem process?_suspend (hne : j ≠ id) :
    (Kernel.suspend id m).1.process? j = m.host.process? j :=
  (System.process?_modifyProcess _ _ _ _).trans (if_neg (Ne.symm hne))

theorem process?_ticked_of_ne (hne : j ≠ id) :
    (Kernel.ticked id k).1.process? j = k.1.process? j :=
  (System.process?_modifyProcess _ _ _ _).trans (if_neg (Ne.symm hne))

theorem regions_ticked (id : Nat) (k : Kernel) (lent : Option Nat) :
    ((Kernel.ticked id k).1.regions lent).Perm (k.1.regions lent) :=
  (System.regions_modify _ _ _ (f := (·.tick)) fun _ _ => ⟨rfl, fun _ => rfl⟩).1

theorem Ready.stopped {p : Process} {context : Context} (hready : Ready k id p image context)
    (h : Housed none held k) (hs : k.1.Orderly ∅) (budget : Nat) :
    Stopped id image held (runLog id budget image context (ticked id k)) k
      (Kernel.suspend id (reached (runEnd id budget image context (ticked id k)))) := by
  have hrecord := process?_ticked hready.record
  have hrunning := (h.ticked id).running_runEnd hrecord hready.image hready.context budget
  have hcredit := (h.ticked id).credited_runEnd hrecord hready.image hready.context budget
  have horderly := orderly_suspend (orderly_ticked hs id) id budget image context
  generalize runLog id budget image context (ticked id k) = log at hcredit ⊢
  generalize reached (runEnd id budget image context (ticked id k)) = m at *
  refine ⟨?_, ?_, ?_, ?_, ?_, fun j => hcredit.owner j⟩
  · exact hrunning.registered_suspend horderly (h.ticked id).furnished.fresh
  · exact fun j c hc => hrunning.suspend.furnished.filed_childrenOf hc
  · intro j q hne hq
    rw [← process?_ticked_of_ne hne] at hq
    obtain ⟨r, hr, hstays, hchildren⟩ := hrunning.leaves.stays j q hq
    exact ⟨r, (process?_suspend hne).trans hr, hstays, hchildren hne⟩
  · refine hrunning.spares.subset fun r hr => ?_
    exact ((regions_ticked id k (some id)).append_right held).mem_iff.2 hr
  · intro j q r hne hq hr
    rw [← process?_ticked_of_ne hne] at hq
    rw [process?_suspend hne] at hr
    exact hcredit.program j q r hq hr

variable {log : List Exchange} {w : Kernel} {quantum : Quantum}

/-- The tree below the process is the same when all that end have ended. -/
theorem Stopped.removes_iff (hw : Stopped id image held log k w)
    (hchildren : ∀ j, t.childrenOf j = w.1.childrenOf j) :
    quantum.Removes k.1 t id j ↔ Takes w.1 id j quantum := by
  have hbelow : Below k.1 t id j ↔ Descends w.1 id j := by
    refine below_iff_descends hchildren fun i c hc => ?_
    exact (hw.registered c).trans (or_congr_right (and_iff_left (hw.filed i c hc)))
  cases quantum with
  | idle | yielded | finished => exact .rfl
  | faulted fault => exact hbelow
  | halted recursive =>
    cases recursive with
    | false => exact .rfl
    | true => exact hbelow

theorem isRegistered_of_descends (hid : s.IsRegistered id) (h : Descends s id j) :
    s.IsRegistered j := by
  cases h with
  | self => exact hid
  | child _ _ hregistered => exact hregistered

/-- Whoever is taken was registered. -/
theorem isRegistered_of_takes (hid : s.IsRegistered id) (hj : Takes s id j quantum) :
    s.IsRegistered j := by
  cases quantum with
  | idle | yielded | finished => exact hj.elim
  | faulted fault => exact isRegistered_of_descends hid hj
  | halted recursive =>
    cases recursive with
    | false => exact (show j = id from hj) ▸ hid
    | true => exact isRegistered_of_descends hid hj

/-- What is done about the end of the process touches only those that it takes. -/
theorem Stopped.contained (hw : Stopped id image held log k w) (h : Housed none held k)
    (hs : w.1.Orderly ∅) {p : Process} (hp : k.1.process? id = some p)
    (himage : p.image = some image) (hid : w.1.IsRegistered id)
    (h' : Housed none held (settle id quantum w)) :
    Contained id quantum log k (settle id quantum w) := by
  have hsettled := settled_settle hs hid quantum
  have hbytes := sameBytes_settle id quantum w
  generalize settle id quantum w = k' at h' hsettled hbytes ⊢
  have hremoves (j : Nat) : quantum.Removes k.1 k'.1 id j ↔ Takes w.1 id j quantum :=
    hw.removes_iff hsettled.children
  refine ⟨fun j hj => ?_, fun j => ?_, fun j hne hj hkept => ?_, fun j q r hne hkept hq hr => ?_,
    fun j hne hkept => ?_⟩
  · rw [hremoves] at hj
    obtain ⟨q, hq, -⟩ := hs.recorded.alive j (isRegistered_of_takes hid hj)
    refine ⟨fun hregistered => ((hsettled.registered j).1 hregistered).2 hj, q.halt, ?_, rfl⟩
    rw [hsettled.halted j hj, hq]
    rfl
  · rw [hsettled.registered, hw.registered, hremoves, ne_eq, ne_eq, hsettled.filed]
  · rw [hremoves] at hkept
    refine h.untouched h' (fun q hq => ?_) fun q c hq hc => ?_
    · rw [(hsettled.others j hne hkept).1]
      exact hw.stays j q hne hq
    · refine (hw.spares.subset fun r hr => ?_).trans (hbytes.spares _)
      exact mem_regions_of_context hq (fun heq => hne (Option.some.inj heq).symm) hc hr held
  · rw [hremoves] at hkept
    rw [(hsettled.others j hne hkept).1] at hr
    refine (hw.program j q r hne hq hr).imp_right fun ⟨hnone, entry, himage', hmem⟩ => ?_
    exact ⟨hnone, p, image, entry, hp, himage, himage', hmem⟩
  · rw [hremoves] at hkept
    rw [(hsettled.others j hne hkept).2]
    exact hw.owner j

/-- A process that can run is registered. -/
theorem Ready.isRegistered {p : Process} {context : Context} (hready : Ready k id p image context)
    (hs : k.1.Orderly ∅) : k.1.IsRegistered id := by
  refine (hs.registered_iff_of_record hready.record).2 ?_
  cases hhalted : p.halted with
  | false => rfl
  | true => simpa [hready.active] using (hs.recorded.bare id p hready.record hhalted).active

theorem Housed.contained_execute (h : Housed none held k) (hs : k.1.Orderly ∅) (id budget : Nat) :
    Contained id (execute id budget k).1 (quantumLog id budget k) k (execute id budget k).2 := by
  have h' := steady_execute_housed id budget k h
  rcases h.ready_or_idle hs id with
    ⟨p, image, context, hready⟩ | hidle
  · have hstopped := hready.stopped h hs budget
    have horderly := orderly_suspend (orderly_ticked hs id) id budget image context
    rw [hready.quantumLog]
    rw [hready.execute, runQuantum_eq] at h' ⊢
    refine hstopped.contained h horderly hready.record hready.image ?_ h'
    -- It is still registered when it stops.
    exact (hstopped.registered id).2 (.inl (hready.isRegistered hs))
  · rw [execute_of_isIdle budget hidle]
    exact h.contained_refl id _

/-- Whatever the program of a process does in a quantum and however that ends, the processes that
are taken off the registry, and halted, are those that the end calls for. The others are left alone,
but for a program or a worker that they were given on request. -/
theorem contained_of_reachable (h : Reachable held k) (id budget : Nat) :
    Contained id (execute id budget k).1 (quantumLog id budget k) k (execute id budget k).2 :=
  h.housed.contained_execute h.orderly id budget

/-! ### An intruder -/

/-- Binds itself to process 1, dispatches that, spawns a child and stumbles over a byte that is no
opcode. -/
def intruderProgram : List UInt8 :=
  [0, 0, 0, 0, 1, 3, 0, 0, 0, 0, 0, 0, 0, 0, 1, 4, 2, 0, 0, 0, 5, 0, 0, 255]

/-- Process 0 has the intruder, process 1 has no program, and process 2 has pushed a value. -/
def intrudedKernel : Kernel :=
  performAll familyKernel [.generate none, .generate none, .generate none,
    .bindProgram 0 intruderProgram, .bindProgram 2 [0, 0, 0, 0, 7, 30], .execute 2 1]

theorem reachable_intrudedKernel : Reachable [] intrudedKernel := by
  have hcreate : Kernel.create familySettings = .ok familyKernel := rfl
  apply (Reachable.create hcreate).performAll
  simp [Op.IsBindImage]

/-- The intruder ends with the child it made. The others stay, one with the program it was given,
one with the value on its stack. -/
theorem contained_intrudedKernel :
    Reachable [] intrudedKernel ∧
      (execute 0 6 intrudedKernel).1 = .faulted (.unknownOpcode 255 23) ∧
      (∀ j ∈ [0, 3], ¬ (execute 0 6 intrudedKernel).2.1.IsRegistered j) ∧
      (∀ j ∈ [1, 2], Untouched j intrudedKernel (execute 0 6 intrudedKernel).2) ∧
      ⟨.bind 1 0, .ok 0⟩ ∈ quantumLog 0 6 intrudedKernel ∧
      ⟨.dispatch 1, .ok 0⟩ ∈ quantumLog 0 6 intrudedKernel := by
  have hreachable := reachable_intrudedKernel
  have hcontained := contained_of_reachable hreachable 0 6
  have hquantum : (execute 0 6 intrudedKernel).1 = .faulted (.unknownOpcode 255 23) := by
    decide +kernel
  rw [hquantum] at hcontained
  have hchildren : (execute 0 6 intrudedKernel).2.1.childrenOf 0 = [3] := by decide +kernel
  have hchildless : (execute 0 6 intrudedKernel).2.1.childrenOf 3 = [] := by decide +kernel
  have hbelow : ∀ j, Below intrudedKernel.1 (execute 0 6 intrudedKernel).2.1 0 j ↔ j ∈ [0, 3] := by
    intro j
    constructor
    · intro h
      induction h with
      | self => simp
      | child _ hc _ ih =>
        rcases List.mem_pair.1 ih with rfl | rfl
        · rw [hchildren] at hc
          exact List.mem_cons_of_mem _ hc
        · simp [hchildless] at hc
    · intro h
      rcases List.mem_pair.1 h with rfl | rfl
      · exact .self
      · exact .child .self (hchildren ▸ List.mem_singleton_self _) (.inr (by decide +kernel))
  refine ⟨hreachable, hquantum, ?_, ?_, by decide +kernel, by decide +kernel⟩
  · exact fun j hj => (hcontained.removed j ((hbelow j).2 hj)).1
  · intro j hj
    have hregistered : ∀ j ∈ [1, 2], intrudedKernel.1.IsRegistered j := by decide +kernel
    have hkept : ∀ j ∈ [1, 2], j ∉ [0, 3] := by decide
    refine hcontained.untouched j ?_ (hregistered j hj) fun hremoved => ?_
    · rintro rfl
      exact hkept 0 hj List.mem_cons_self
    · exact hkept j hj ((hbelow j).1 hremoved)

end Kernel

end BytecodeKernel
