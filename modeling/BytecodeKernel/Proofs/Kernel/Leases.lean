import BytecodeKernel.Proofs.Kernel.Housing
/-!
Quanta. A process that runs has lent its context to a machine, and asks the kernel for services
while it runs. Whatever its bytes are, the accounts stay right, the records of all processes stay,
and the bytes that other processes and their programs occupy are not touched.
-/

namespace BytecodeKernel

/-- The record stays as it is, but for its children and for a program that it may get. -/
structure Process.Stays (p q : Process) : Prop where
  id : q.id = p.id
  priority : q.priority = p.priority
  cycle : q.cycle = p.cycle
  name : q.name = p.name
  context : q.context = p.context
  active : q.active = p.active
  halted : q.halted = p.halted
  image : p.image ≠ none → q.image = p.image

namespace Process

theorem Stays.refl (p : Process) : p.Stays p :=
  ⟨rfl, rfl, rfl, rfl, rfl, rfl, rfl, fun _ => rfl⟩

theorem Stays.trans {p q r : Process} (hpq : p.Stays q) (hqr : q.Stays r) : p.Stays r where
  id := hqr.id.trans hpq.id
  priority := hqr.priority.trans hpq.priority
  cycle := hqr.cycle.trans hpq.cycle
  name := hqr.name.trans hpq.name
  context := hqr.context.trans hpq.context
  active := hqr.active.trans hpq.active
  halted := hqr.halted.trans hpq.halted
  image h := by
    have hfirst := hpq.image h
    exact (hqr.image (hfirst ▸ h)).trans hfirst

theorem stays_addChild (p : Process) (child : Nat) : p.Stays (p.addChild child) := by
  rw [addChild]
  split <;> exact ⟨rfl, rfl, rfl, rfl, rfl, rfl, rfl, fun _ => rfl⟩

end Process

/-- The services of one process leave the records of all processes, and the children of the others.
-/
structure System.Leaves (id : Nat) (s t : System) : Prop where
  counter : s.nextId ≤ t.nextId
  stays : ∀ j p, s.process? j = some p →
    ∃ q, t.process? j = some q ∧ p.Stays q ∧ (j ≠ id → q.children = p.children)
  registered : ∀ j, t.IsRegistered j ↔ s.IsRegistered j ∨ t.IsRegistered j ∧ s.nextId ≤ j
  newborn : ∀ j q, s.process? j = none → t.process? j = some q → q.halted = false

namespace System

variable {s t u : System} {id : Nat}

theorem Leaves.refl (id : Nat) (s : System) : s.Leaves id s :=
  ⟨Nat.le_refl _, fun _ p hp => ⟨p, hp, .refl p, fun _ => rfl⟩, fun j => by tauto,
    fun _ q hnone hq => absurd (hq.symm.trans hnone) (Option.some_ne_none q)⟩

theorem Leaves.trans (hst : s.Leaves id t) (htu : t.Leaves id u) : s.Leaves id u where
  counter := hst.counter.trans htu.counter
  stays j p hp := by
    obtain ⟨q, hq, hstays, hchildren⟩ := hst.stays j p hp
    obtain ⟨r, hr, hstays', hchildren'⟩ := htu.stays j q hq
    exact ⟨r, hr, hstays.trans hstays', fun hj => (hchildren' hj).trans (hchildren hj)⟩
  registered j := by
    have hfirst := hst.registered j
    have hsecond := htu.registered j
    have hcounter := hst.counter
    constructor
    · intro hj
      rcases hsecond.1 hj with hj' | ⟨-, hle⟩
      · exact (hfirst.1 hj').imp_right fun h => ⟨hj, h.2⟩
      · exact .inr ⟨hj, hcounter.trans hle⟩
    · rintro (hj | ⟨hj, -⟩)
      · exact hsecond.2 (.inl (hfirst.2 (.inl hj)))
      · exact hj
  newborn j r hnone hr := by
    cases ht : t.process? j with
    | none => exact htu.newborn j r ht hr
    | some q =>
      obtain ⟨r', hr', hstays, -⟩ := htu.stays j q ht
      obtain rfl := Option.some.inj (hr.symm.trans hr')
      exact hstays.halted.trans (hst.newborn j q hnone ht)

/-- Nothing but workers, the console, the storage or the counter has changed. -/
theorem leaves_of_eq (hprocesses : t.processes = s.processes) (hregistry : t.registry = s.registry)
    (hcounter : s.nextId ≤ t.nextId) : s.Leaves id t where
  counter := hcounter
  stays j p hp := ⟨p, by rwa [process?_congr hprocesses], .refl p, fun _ => rfl⟩
  registered j := by
    rw [isRegistered_congr hregistry]
    tauto
  newborn j q hnone hq := by
    rw [process?_congr hprocesses, hnone] at hq
    contradiction

theorem leaves_modify {f : Process → Process} {j : Nat}
    (hf : ∀ p, s.process? j = some p → p.Stays (f p) ∧ (f p).children = p.children) :
    s.Leaves id (s.modifyProcess j f) where
  counter := Nat.le_refl _
  stays i p hp := by
    refine ⟨_, process?_modify_of_eq_some hp, ?_⟩
    split
    · rename_i heq
      subst heq
      exact ⟨(hf p hp).1, fun _ => (hf p hp).2⟩
    · exact ⟨.refl p, fun _ => rfl⟩
  registered i := by
    rw [isRegistered_congr (t := s.modifyProcess j f) (s := s) rfl]
    tauto
  newborn i q hnone hq := by
    rcases process?_modify_eq_some hq with ⟨rfl, p, hp, -⟩ | ⟨-, hq⟩
    · exact absurd (hp.symm.trans hnone) (Option.some_ne_none p)
    · exact absurd (hq.symm.trans hnone) (Option.some_ne_none q)

/-- A child of the process is entered, with whatever priority and name. -/
theorem leaves_spawned (hfresh : s.process? s.nextId = none) (context : Context)
    {f : Process → Process} (hf : ∀ p, (f p).halted = p.halted) :
    s.Leaves id ((s.entered (some id) context).modifyProcess s.nextId f) where
  counter := by
    show s.nextId ≤ (s.entered (some id) context).nextId
    rw [nextId_entered]
    exact Nat.le_succ _
  stays j p hp := by
    have hne : s.nextId ≠ j := by
      rintro rfl
      exact Option.some_ne_none p (hp.symm.trans hfresh)
    rw [process?_modifyProcess, if_neg hne]
    obtain ⟨q, hq, rfl | ⟨hid, rfl⟩⟩ := exists_process?_entered hp hne.symm (some id) context
    · exact ⟨_, hq, .refl _, fun _ => rfl⟩
    · exact ⟨_, hq, p.stays_addChild _, fun hj => absurd (Option.some.inj hid).symm hj⟩
  registered j := by
    rw [isRegistered_congr (t := (s.entered (some id) context).modifyProcess s.nextId f)
      (s := s.entered (some id) context) rfl, isRegistered_entered]
    constructor
    · rintro (rfl | hj)
      · exact .inr ⟨.inl rfl, Nat.le_refl _⟩
      · exact .inl hj
    · rintro (hj | ⟨hj, -⟩)
      · exact .inr hj
      · exact hj
  newborn j q hnone hq := by
    rcases process?_modify_eq_some hq with ⟨rfl, p, hp, rfl⟩ | ⟨hne, hq⟩
    · rw [process?_entered, if_pos rfl] at hp
      rw [hf, ← Option.some.inj hp]
    · rw [process?_entered, if_neg hne, hnone] at hq
      split at hq <;> contradiction

/-- A block of a program stays one. -/
theorem Leaves.programs (h : s.Leaves id t) {r : Nat × Nat} (hr : r ∈ s.programs) :
    r ∈ t.programs := by
  obtain ⟨j, p, image, hp, himage, rfl⟩ := mem_programs.1 hr
  obtain ⟨q, hq, hstays, -⟩ := h.stays j p hp
  refine mem_programs.2 ⟨j, q, image, hq, ?_, rfl⟩
  rw [hstays.image (himage ▸ Option.some_ne_none image), himage]

theorem Leaves.regions (h : s.Leaves id t) {lent : Option Nat} {r : Nat × Nat}
    (hr : r ∈ s.regions lent) : r ∈ t.regions lent := by
  rcases List.mem_append.1 hr with hr | hr
  · obtain ⟨j, p, context, hp, hlent, hcontext, hr⟩ := mem_rooms.1 hr
    obtain ⟨q, hq, hstays, -⟩ := h.stays j p hp
    refine List.mem_append_left _ (mem_rooms.2 ⟨j, q, context, hq, hlent, ?_, hr⟩)
    rw [hstays.context, hcontext]
  · exact List.mem_append_right _ (h.programs hr)

end System

namespace Kernel

variable {id : Nat} {image : Image} {held : List (Nat × Nat)} {s : System} {k k' : Kernel}

/-! ### Services -/

/-- What a service for a process does: the accounts stay right and the bytes as they are. -/
structure Serves (id : Nat) (held : List (Nat × Nat)) (k k' : Kernel) : Prop where
  housed : Housed (some id) held k'
  leaves : k.1.Leaves id k'.1
  store : k'.2.store = k.2.store
  limit : k'.2.limit = k.2.limit

theorem Housed.serves_refl (h : Housed (some id) held k) : Serves id held k k :=
  ⟨h, .refl _ _, rfl, rfl⟩

theorem Housed.serves_spawn (h : Housed (some id) held k) (priority : Nat) (name : List UInt8) :
    Serves id held k (reached (host.spawn id priority name k)) := by
  obtain ⟨s, a⟩ := k
  have hroom := h.owns.reserveOrKeep (min (s.settings.heapBytes + s.settings.stackBytes)
    (addressLimit - 1))
  rcases host_spawn_cases id priority name s a with ⟨context, b, hcreate, heq⟩ | ⟨e, heq⟩ | ⟨e, heq⟩
  · rw [heq]
    obtain ⟨-, -, -, hstore, hlimit⟩ := Context.owns_of_create hroom.1 hcreate
    refine ⟨?_, System.leaves_spawned (h.furnished.fresh _ (Nat.le_refl _)) context fun _ => rfl,
      hstore.trans hroom.2.1, hlimit.trans hroom.2.2⟩
    exact (h.roomFor.enter (some id) hcreate).relabel fun p => p.relabels_rename priority name
  · rw [heq]
    exact h.serves_refl
  · rw [heq]
    exact ⟨h.roomFor.counted, System.leaves_of_eq rfl rfl (Nat.le_succ _), hroom.2.1, hroom.2.2⟩

theorem Housed.serves_bind (h : Housed (some id) held k) (target : Nat)
    (hprogram : image.region ∈ k.1.programs) :
    Serves id held k (reached (host.bind target image k)) := by
  rcases host_bind_cases target image k with ⟨hbindable, heq⟩ | ⟨e, heq⟩
  · rw [heq]
    refine ⟨h.bindShared hbindable hprogram, System.leaves_modify ?_, rfl, rfl⟩
    obtain ⟨p, hp, -, hnone⟩ := hbindable
    intro q hq
    obtain rfl : p = q := Option.some.inj (hp.symm.trans hq)
    exact ⟨⟨rfl, rfl, rfl, rfl, rfl, rfl, rfl, fun hsome => absurd hnone hsome⟩, rfl⟩
  · rw [heq]
    exact h.serves_refl

theorem Housed.serves_dispatch (h : Housed (some id) held k) (target : Nat) :
    Serves id held k (reached (host.dispatch target k)) := by
  rcases host_dispatch_cases target k with ⟨index, -, heq⟩ | ⟨e, heq⟩
  · rw [heq]
    exact ⟨h.congr rfl (Nat.le_refl _), System.leaves_of_eq rfl rfl (Nat.le_refl _), rfl, rfl⟩
  · rw [heq]
    exact h.serves_refl

theorem Housed.serves_print (h : Housed (some id) held k) (origin : Nat) (text : String) :
    Serves id held k (reached (host.print origin text k)) := by
  rw [reached_host_print]
  exact ⟨h.congr rfl (Nat.le_refl _), System.leaves_of_eq rfl rfl (Nat.le_refl _), rfl, rfl⟩

/-! ### Runs -/

/-- A process runs on a machine, which has its context. Of what was there when it began the records
are left, and the bytes of everything that is not its own. -/
structure Running (id : Nat) (image : Image) (held : List (Nat × Nat)) (start : Kernel)
    (m : Machine System) : Prop where
  housed : Housed (some id) (m.stack.regions ++ (m.heap.region :: held)) (kernelOf m)
  program : image.region ∈ m.host.programs
  tiled : m.heap.Tiled
  plain : m.stack.Plain
  top_le : m.stack.top ≤ m.stack.size
  leaves : start.1.Leaves id m.host
  spares : Arena.Spares (start.1.regions (some id) ++ held) start.2 m.arena

variable {start : Kernel} {m : Machine System}

/-- What is spared beside the machine is spared from the beginning. -/
theorem Running.spares_trans (hm : Running id image held start m) {a : Arena}
    {others : List (Nat × Nat)} (h : Arena.Spares others m.arena a)
    (hothers : ∀ r ∈ m.host.regions (some id) ++ held, r ∈ others) :
    Arena.Spares (start.1.regions (some id) ++ held) start.2 a := by
  refine hm.spares.trans (h.subset fun r hr => hothers r ?_)
  rcases List.mem_append.1 hr with hr | hr
  · exact List.mem_append_left _ (hm.leaves.regions hr)
  · exact List.mem_append_right _ hr

theorem keeps_onStack {α : Type} {x : StackM α}
    (hx : ∀ others a, Preserves (Stack.Home others a) x)
    (hplain : Preserves (fun t : Stack × Arena => t.1.Plain) x) :
    Preserves (Running id image held start) (Exec.onStack x) := by
  refine .of_reached fun m hm => ?_
  have hbegin : Stack.Home (m.host.regions (some id) ++ (m.heap.region :: held)) m.arena
      (m.stack, m.arena) :=
    ⟨hm.housed.owns.perm (List.perm_append_comm_assoc _ _ _), .refl _ _, hm.top_le,
      hm.plain.depth ▸ Nat.zero_le _⟩
  have hhome := (hx _ _).reached hbegin
  have hshape := hplain.reached (s := (m.stack, m.arena)) hm.plain
  rw [Exec.reached_onStack]
  refine ⟨?_, hm.program, hm.tiled, hshape, hhome.top_le, hm.leaves, ?_⟩
  · exact hm.housed.withArena (hhome.owns.perm (List.perm_append_comm_assoc _ _ _))
  · refine hm.spares_trans hhome.spares fun r hr => ?_
    exact (List.perm_middle (a := m.heap.region)).mem_iff.2 (List.mem_cons_of_mem _ hr)

theorem keeps_onHeap {α : Type} {x : HeapM α}
    (hx : ∀ others a, Preserves (Heap.Home others a) x)
    (htiled : Preserves (fun t : Heap × Arena => t.1.Tiled) x) :
    Preserves (Running id image held start) (Exec.onHeap x) := by
  refine .of_reached fun m hm => ?_
  have hperm (region : Nat × Nat) :
      (m.host.regions (some id) ++ (m.stack.regions ++ (region :: held))).Perm
        (region :: (m.host.regions (some id) ++ (m.stack.regions ++ held))) :=
    (List.perm_middle.append_left _).trans List.perm_middle
  have hbegin : Heap.Home (m.host.regions (some id) ++ (m.stack.regions ++ held)) m.arena
      (m.heap, m.arena) :=
    ⟨hm.housed.owns.perm (hperm _), .refl _ _⟩
  have hhome := (hx _ _).reached hbegin
  have hshape := htiled.reached (s := (m.heap, m.arena)) hm.tiled
  rw [Exec.reached_onHeap]
  refine ⟨?_, hm.program, hshape, hm.plain, hm.top_le, hm.leaves, ?_⟩
  · exact hm.housed.withArena (hhome.owns.perm (hperm _).symm)
  · refine hm.spares_trans hhome.spares fun r hr => ?_
    rcases List.mem_append.1 hr with hr | hr
    · exact List.mem_append_left _ hr
    · exact List.mem_append_right _ (List.mem_append_right _ hr)

theorem keeps_onHost {α : Type} {x : HostM System α}
    (hx : ∀ held k, Housed (some id) held k → image.region ∈ k.1.programs →
      Serves id held k (reached (x k))) :
    Preserves (Running id image held start) (Exec.onHost x) := by
  refine .of_reached fun m hm => ?_
  have hserves := hx _ (kernelOf m) hm.housed hm.program
  rw [Exec.reached_onHost]
  refine ⟨hserves.housed, hserves.leaves.programs hm.program, hm.tiled, hm.plain, hm.top_le,
    hm.leaves.trans hserves.leaves, ?_⟩
  refine hm.spares_trans (Arena.spares_of_store_eq hserves.limit hserves.store _) fun r hr => hr

/-- Whatever the bytes of the program are. -/
theorem keeps_running (id : Nat) (image : Image) (held : List (Nat × Nat)) (start : Kernel) :
    (Runner.mk id image host).Keeps (Running id image held start) where
  cursor _ _ hm := ⟨hm.housed, hm.program, hm.tiled, hm.plain, hm.top_le, hm.leaves, hm.spares⟩
  push v := keeps_onStack (fun _ _ => Stack.preserves_push v) (Stack.isShape_plain.push v)
  pop := keeps_onStack (fun _ _ => Stack.preserves_pop) Stack.isShape_plain.pop
  popFrame := keeps_onStack (fun _ _ => Stack.preserves_popFrame) Stack.isShape_plain.popFrame
  malloc size :=
    keeps_onHeap (fun _ _ => Heap.preserves_malloc size) (Heap.preserves_malloc_tiled size)
  copyIn dst src length :=
    keeps_onHeap (fun _ _ => Heap.preserves_copyIn dst src length)
      (Heap.preserves_copyIn_tiled dst src length)
  spawn priority name := keeps_onHost fun _ _ h _ => h.serves_spawn priority name
  bind target _ := keeps_onHost fun _ _ h hprogram => h.serves_bind target hprogram
  dispatch target := keeps_onHost fun _ _ h _ => h.serves_dispatch target
  print text := keeps_onHost fun _ _ h _ => h.serves_print _ text

open scoped List in
theorem perm_lent (operands rooms programs : List (Nat × Nat)) (region : Nat × Nat)
    (held : List (Nat × Nat)) :
    ((region :: operands) ++ rooms ++ programs ++ held).Perm
      ((rooms ++ programs) ++ (operands ++ (region :: held))) := by
  calc (region :: operands) ++ rooms ++ programs ++ held
      = (region :: operands) ++ ((rooms ++ programs) ++ held) := by simp only [List.append_assoc]
    _ ~ (rooms ++ programs) ++ ((region :: operands) ++ held) :=
      List.perm_append_comm_assoc _ _ _
    _ ~ (rooms ++ programs) ++ (operands ++ (region :: held)) :=
      List.perm_middle.symm.append_left _

theorem Furnished.lend (h : Furnished none s) {p : Process} (hp : s.process? id = some p)
    (hsome : p.context ≠ none) : Furnished (some id) s where
  kept j q c hq _ hc := h.kept j q c hq (by simp) hc
  roomed := h.roomed
  lender j hj := ⟨p, Option.some.inj hj ▸ hp, hsome⟩
  filed := h.filed
  fresh := h.fresh

theorem Furnished.giveBack (h : Furnished (some id) s)
    (hkept : ∀ p c, s.process? id = some p → p.context = some c → c.Kept) :
    Furnished none s where
  kept j q c hq _ hc := by
    by_cases hj : some id = some j
    · obtain rfl := Option.some.inj hj
      exact hkept q c hq hc
    · exact h.kept j q c hq hj hc
  roomed := h.roomed
  lender j hj := by simp at hj
  filed := h.filed
  fresh := h.fresh

/-- A process that begins a quantum lends its context. -/
theorem Housed.running (h : Housed none held k) {p : Process} {context : Context}
    (hp : k.1.process? id = some p) (himage : p.image = some image)
    (hcontext : p.context = some context) :
    Running id image held k (machineOf context image k) := by
  have hkept := h.furnished.kept id p context hp (by simp) hcontext
  have hrooms := System.rooms_lend hp
  rw [Process.rooms, hcontext] at hrooms
  refine ⟨⟨?_, ?_⟩, ?_, hkept.tiled, hkept.plain, hkept.top_le, .refl _ _, .refl _ _⟩
  · refine h.owns.perm (((hrooms.append_right _).append_right held).trans ?_)
    exact perm_lent _ _ _ _ _
  · exact h.furnished.lend hp (hcontext ▸ Option.some_ne_none context)
  · exact System.mem_programs.2 ⟨id, p, image, hp, himage, rfl⟩

/-- The record with the context as a machine leaves it. -/
def handBack (m : Machine System) (p : Process) : Process :=
  { p with context := p.context.map fun _ =>
      { heap := m.heap, stack := m.stack, cursor := some m.cursor } }

/-- The record gets the context back as the machine leaves it. -/
theorem Running.suspend (hm : Running id image held start m) :
    Housed none held (suspend id m) := by
  obtain ⟨p, hp, hsome⟩ := hm.housed.furnished.lender id rfl
  obtain ⟨context, hcontext⟩ := Option.ne_none_iff_exists'.1 hsome
  show Housed none held (m.host.modifyProcess id (handBack m), m.arena)
  obtain ⟨hregions, -⟩ := System.regions_modify (some id) m.host id
    (f := handBack m) fun _ _ => ⟨rfl, fun hne => absurd rfl hne⟩
  have hback := System.process?_modify_self hp (handBack m)
  have hrooms := System.rooms_lend hback
  rw [Process.rooms, handBack, hcontext] at hrooms
  constructor
  · refine hm.housed.owns.perm ((hregions.symm.append_right _).trans ?_)
    refine List.Perm.trans ?_ (((hrooms.symm.append_right _).append_right held))
    exact (perm_lent _ _ _ _ _).symm
  · have hlent : Furnished (some id) (m.host.modifyProcess id (handBack m)) := by
      refine hm.housed.furnished.modify (fun q c _ hne => absurd rfl hne) ?_ ?_ fun _ => rfl
      · intro q hq halive
        have hroomed := hm.housed.furnished.roomed id q hq halive
        simpa [handBack] using hroomed
      · intro q hq _
        obtain rfl : p = q := Option.some.inj (hp.symm.trans hq)
        simpa [handBack] using hsome
    refine hlent.giveBack fun q c hq hc => ?_
    obtain rfl := Option.some.inj (hback.symm.trans hq)
    obtain ⟨-, -, rfl⟩ := Option.map_eq_some_iff.1 hc
    exact ⟨hm.tiled, hm.plain, hm.top_le, by simp⟩

theorem Housed.settle (h : Housed none held k) (id : Nat) (quantum : Quantum) :
    Housed none held (settle id quantum k) := by
  have hhung : Housed none held (k.1.modifyProcess id (·.hang), k.2) :=
    h.relabel Process.relabels_hang
  cases quantum with
  | idle | yielded => exact h
  | finished => exact hhung
  | faulted fault => exact Upholds.attempt (preserves_haltSubtree_housed id) hhung
  | halted recursive =>
    cases recursive with
    | false => exact Upholds.attempt (preserves_halt_housed id) hhung
    | true => exact Upholds.attempt (preserves_haltSubtree_housed id) hhung

/-- How a run counts that has ended. -/
def quantumOfEnd {τ : Type} : EStateM.Result Fault τ Outcome → Quantum
  | .ok outcome _ => quantumOf outcome
  | .error fault _ => .faulted fault

/-- How the run of a quantum ends. -/
def runEnd (id budget : Nat) (image : Image) (context : Context) (k : Kernel) :
    EStateM.Result Fault (Machine System) Outcome :=
  Runner.run ⟨id, image, host⟩ budget (machineOf context image k)

/-- A fault leaves the machine where it was raised, and counts like any other end. -/
theorem runQuantum_eq (id budget : Nat) (image : Image) (context : Context) (k : Kernel) :
    runQuantum id budget image context k =
      (quantumOfEnd (runEnd id budget image context k),
        Kernel.settle id (quantumOfEnd (runEnd id budget image context k))
          (Kernel.suspend id (reached (runEnd id budget image context k)))) := by
  rw [runEnd, runQuantum]
  cases Runner.run ⟨id, image, host⟩ budget (machineOf context image k) <;> rfl

theorem Housed.running_runEnd (h : Housed none held k) {p : Process} {context : Context}
    (hp : k.1.process? id = some p) (himage : p.image = some image)
    (hcontext : p.context = some context) (budget : Nat) :
    Running id image held k (reached (runEnd id budget image context k)) :=
  ((keeps_running id image held k).run budget).reached (h.running hp himage hcontext)

/-- The registry and the family are in order when the process stops. -/
theorem orderly_suspend (hs : k.1.Orderly ∅) (id budget : Nat) (image : Image)
    (context : Context) :
    (Kernel.suspend id (reached (runEnd id budget image context k))).1.Orderly ∅ := by
  have hbegin : Tracks ∅ k.1 (kernelOf (machineOf context image k)) := ⟨hs, .refl _⟩
  exact ((((keeps_tracks id image).run budget).reached hbegin).suspend id).orderly

theorem programs_suspend {r : Nat × Nat} (hr : r ∈ m.host.programs) :
    r ∈ (Kernel.suspend id m).1.programs := by
  obtain ⟨-, hprograms⟩ := System.regions_modify (some id) m.host id
    (f := handBack m) fun _ _ => ⟨rfl, fun hne => absurd rfl hne⟩
  exact hprograms.mem_iff.2 hr

/-- The kernel in which a process has grown older by a round. -/
def ticked (id : Nat) (k : Kernel) : Kernel :=
  (k.1.modifyProcess id (·.tick), k.2)

theorem process?_ticked {p : Process} (hp : k.1.process? id = some p) :
    (ticked id k).1.process? id = some p.tick := by
  rw [ticked, System.process?_modify_self hp]

/-- What a process needs to run. -/
structure Ready (k : Kernel) (id : Nat) (p : Process) (image : Image) (context : Context) :
    Prop where
  record : k.1.process? id = some p
  active : p.active = true
  image : p.image = some image
  context : p.context = some context

theorem Ready.execute {p : Process} {context : Context} (h : Ready k id p image context)
    (budget : Nat) : execute id budget k = runQuantum id budget image context (ticked id k) := by
  obtain ⟨s, a⟩ := k
  have hrecord : s.process? id = some p := h.record
  simp only [Kernel.execute, hrecord, h.active, h.image, h.context]
  rfl

/-- A process that has a program and is not hung is ready to run, for it has a context. -/
theorem Housed.ready_or_idle (h : Housed none held k) (hs : k.1.Orderly ∅) (id : Nat) :
    (∃ p image context, Ready k id p image context) ∨ k.1.isIdle id := by
  cases hp : k.1.process? id with
  | none => exact .inr (by simp [System.isIdle, hp])
  | some p =>
    cases hactive : p.active with
    | false => exact .inr (by simp [System.isIdle, hp, Process.isIdle, hactive])
    | true =>
      cases himage : p.image with
      | none => exact .inr (by simp [System.isIdle, hp, Process.isIdle, Process.isBound, himage])
      | some image =>
        have halive : p.halted = false := by
          cases hhalted : p.halted with
          | false => rfl
          | true => simpa [himage] using (hs.recorded.bare id p hp hhalted).image
        obtain ⟨context, hcontext⟩ :=
          Option.ne_none_iff_exists'.1 (h.furnished.roomed id p hp halive)
        exact .inl ⟨p, image, context, hp, hactive, himage, hcontext⟩

theorem orderly_ticked (hs : k.1.Orderly ∅) (id : Nat) : (ticked id k).1.Orderly ∅ :=
  (hs.modify fun p _ => p.relabels_tick.quiet).1

theorem Housed.ticked (h : Housed none held k) (id : Nat) : Housed none held (ticked id k) :=
  h.relabel Process.relabels_tick

theorem steady_execute_housed (id budget : Nat) :
    Steady (Housed none held) (execute id budget) := by
  rintro ⟨s, a⟩ h
  simp only [execute]
  split
  · exact h
  · rename_i p hp
    split
    · rename_i image _ himage
      split
      · exact h.ticked id
      · rename_i context hcontext
        have hrecord := process?_ticked (k := (s, a)) hp
        show Housed none held (runQuantum id budget image context (Kernel.ticked id (s, a))).2
        rw [runQuantum_eq]
        exact ((h.ticked id).running_runEnd hrecord himage hcontext budget).suspend.settle id _
    · exact h

theorem upholds_housed (held : List (Nat × Nat)) : Upholds (Housed none held) where
  relabel _ _ _ h hf := h.relabel hf
  worker _ _ _ h _ := h.congr rfl (Nat.le_refl _)
  keepAlive _ _ h := h.congr rfl (Nat.le_refl _)
  generate := preserves_generate_housed
  bindProgram := preserves_bindProgram_housed
  dispatch := preserves_dispatch_housed
  execute := steady_execute_housed
  halt := preserves_halt_housed
  haltSubtree := preserves_haltSubtree_housed
  release _ id h _ := h.release id

end Kernel

end BytecodeKernel
