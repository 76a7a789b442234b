import BytecodeKernel.Proofs.Kernel.Containment
import BytecodeKernel.Proofs.Kernel.Solos
import BytecodeKernel.Proofs.Kernel.Stints
/-!
A process in its kernel. While a process rests, its record, its regions and its program amount to a
state of the machine without memory. Its quanta move it as that machine moves; quanta of other
processes leave the state as it is, or end the process.
-/

namespace BytecodeKernel

/-- The request is to print a text. -/
def HostCall.IsPrint : HostCall → Prop
  | .print .. => True
  | .spawn .. | .bind .. | .dispatch _ => False

namespace Kernel

variable {id : Nat} {image : Image} {held : List (Nat × Nat)} {s : System} {k k' : Kernel}

/-! ### The kernel as a host -/

/-- The kernel prints what its processes say, and nothing else. -/
theorem voiced_host (id : Nat) (image : Image) :
    (Runner.mk id image host).Voiced System.console HostCall.IsPrint where
  spawn priority name := by
    refine ⟨fun s a => ?_, fun h => h.elim⟩
    rcases host_spawn_cases id priority name s a with ⟨context, b, -, heq⟩ | ⟨e, heq⟩ | ⟨e, heq⟩ <;>
      rw [heq] <;> rfl
  bind target entry := by
    refine ⟨fun s a => ?_, fun h => h.elim⟩
    rcases host_bind_cases target (image.enteredAt entry) (s, a) with ⟨-, heq⟩ | ⟨e, heq⟩ <;>
      rw [heq] <;> rfl
  dispatch target := by
    refine ⟨fun s a => ?_, fun h => h.elim⟩
    rcases host_dispatch_cases target (s, a) with ⟨index, -, heq⟩ | ⟨e, heq⟩ <;> rw [heq] <;> rfl
  print text := by
    refine ⟨fun s a => congrArg (·.1.console) (reached_host_print id text (s, a)), fun _ s a => ?_⟩
    show Host.answer _ (Kernel.print id text (s, a)) = _
    simp only [Kernel.print, Console.answer, verdict]
    cases s.console.panicsAt id text <;> rfl

/-- The regions of everyone but the process that runs. -/
structure Beside (id : Nat) (image : Image) (held : List (Nat × Nat)) (s : System)
    (others : List (Nat × Nat)) : Prop where
  furnished : Furnished (some id) s
  program : image.region ∈ s.programs
  regions : others.Perm (s.regions (some id) ++ held)

theorem keeps_of_serves {α : Type} {x : HostM System α}
    (hx : ∀ held k, Housed (some id) held k → image.region ∈ k.1.programs →
      Serves id held k (reached (x k))) :
    Host.Keeps (Beside id image held) image.region x := by
  intro s a mine others hbeside howns
  have hhoused : Housed (some id) (mine ++ held) (s, a) := by
    refine ⟨howns.perm ?_, hbeside.furnished⟩
    exact (hbeside.regions.append_left mine).trans (List.perm_append_comm_assoc _ _ _)
  have hserves := hx _ _ hhoused hbeside.program
  refine ⟨_, ⟨hserves.housed.furnished, hserves.leaves.programs hbeside.program, .refl _⟩,
    hserves.housed.owns.perm (List.perm_append_comm_assoc _ _ _), ?_⟩
  exact Arena.spares_of_store_eq hserves.limit hserves.store _

theorem discreet_host (id : Nat) (image : Image) (held : List (Nat × Nat)) :
    (Runner.mk id image host).Discreet (Beside id image held) where
  shared _ _ h := h.regions.mem_iff.2
    (List.mem_append_left _ (List.mem_append_right _ h.program))
  spawn priority name := keeps_of_serves fun _ _ h _ => h.serves_spawn priority name
  bind target _ := keeps_of_serves fun _ _ h hprogram => h.serves_bind target hprogram
  dispatch target := keeps_of_serves fun _ _ h _ => h.serves_dispatch target
  print text := keeps_of_serves fun _ _ h _ => h.serves_print id text

/-- A process and the machine without memory that runs its program, after some requests. -/
def bridge (id : Nat) (image : Image) (held : List (Nat × Nat)) (program : List UInt8)
    (breaks : String → Bool) (hlength : program.length = image.length)
    (past : List HostCall) : Bridge System Pile where
  runner := ⟨id, image, host⟩
  World := Beside id image held
  setting := .printing id program breaks
  Shows := Pile.Shows
  past := past
  discreet := discreet_host id image held
  renders := Pile.renders_shelf
  origin := Eq.refl id
  length := hlength

/-! ### The console -/

theorem console_release (id : Nat) (k : Kernel) : (release id k).1.console = k.1.console := by
  obtain ⟨s, a⟩ := k
  simp only [release]
  split
  · rfl
  · split <;> rfl

theorem console_detach (s : System) (ids : List Nat) : (detach s ids).2.console = s.console := by
  induction ids with
  | nil => rfl
  | cons id rest ih =>
    rw [← ih, detach]
    simp only
    split <;> rfl

theorem console_sweep (pending : List Ending) (k : Kernel) :
    (sweep pending k).1.console = k.1.console := by
  fun_induction sweep pending k with
  | case1 k => rfl
  | case2 k id rest ih => exact ih.trans (console_release id k)
  | case3 k id rest found ih => exact ih.trans (console_detach _ _)

theorem console_halt (id : Nat) (k : Kernel) : (reached (halt id k)).1.console = k.1.console := by
  rw [halt_eq]
  split
  · exact console_release id (k.1.unregister id, k.2)
  · rfl

theorem console_haltSubtree (id : Nat) (k : Kernel) :
    (reached (haltSubtree id k)).1.console = k.1.console := by
  rw [haltSubtree_eq]
  split
  · exact console_sweep _ ((k.1.unregister id).modifyProcess id (·.hang), k.2)
  · rfl

/-- Whatever the end of a process calls for, nothing is printed. -/
theorem console_settle (id : Nat) (quantum : Quantum) (k : Kernel) :
    (settle id quantum k).1.console = k.1.console := by
  cases quantum with
  | idle | yielded | finished => rfl
  | faulted fault =>
    rw [settle, attempt_eq_reached]
    exact console_haltSubtree id _
  | halted recursive =>
    cases recursive <;> rw [settle, attempt_eq_reached]
    · exact console_halt id _
    · exact console_haltSubtree id _

/-- In a quantum that process is heard, and no other. -/
theorem echoes_execute (h : Housed none held k) (hs : k.1.Orderly ∅) (id budget : Nat) :
    Echoes HostCall.IsPrint id k.1.console (execute id budget k).2.1.console
      (quantumLog id budget k) := by
  rcases h.ready_or_idle hs id with ⟨p, image, context, hready⟩ | hidle
  · have hechoes := (voiced_host id image).echoes budget (machineOf context image (ticked id k))
    rw [hready.execute, runQuantum_eq, hready.quantumLog, console_settle]
    exact hechoes
  · have hlog : quantumLog id budget k = [] :=
      congrArg Stint.requests (stint_of_isIdle hidle budget)
    rw [execute_of_isIdle budget hidle, hlog]
    exact .refl _ _ _

/-! ### At rest -/

/-- The context and the program amount to this state. -/
structure Rests (program : List UInt8) (image : Image) (c : Context) (a : Arena) (i : Ideal Pile) :
    Prop where
  program : image.Holds program a
  cursor : c.cursor.getD image.entry = i.cursor
  operands : c.stack.slots a = i.operands.reverse
  returns : i.returns = []
  shows : Pile.Shows c.heap.blocks i.heap
  texts : ∀ addr, i.heap.texts addr = c.heap.readBlock a addr

/-- The process is registered, and is in this state. -/
structure Resting (program : List UInt8) (entry id : Nat) (k : Kernel) (i : Ideal Pile) :
    Prop where
  registered : k.1.IsRegistered id
  rests : ∃ p image c, k.1.process? id = some p ∧ p.image = some image ∧ p.context = some c ∧
    image.entry = entry ∧ Rests program image c k.2 i

/-- The process has a program that it has not begun. -/
structure Fresh (program : List UInt8) (entry id : Nat) (k : Kernel) : Prop where
  registered : k.1.IsRegistered id
  unbegun : ∃ p image c, k.1.process? id = some p ∧ p.image = some image ∧ p.context = some c ∧
    image.entry = entry ∧ image.Holds program k.2 ∧ c.cursor = none

variable {program : List UInt8} {entry budget : Nat} {i : Ideal Pile} {c : Context} {p : Process}

/-- A process that has not begun is where the machine without memory begins. -/
theorem Fresh.resting (hid : Fresh program entry id k) (h : Housed none held k) :
    Resting program entry id k (.beginning entry) := by
  obtain ⟨p, image, c, hp, himage, hcontext, hentry, hholds, hcursor⟩ := hid.unbegun
  have hkept := h.furnished.kept id p c hp (by simp) hcontext
  obtain ⟨hblocks, htop⟩ := hkept.fresh hcursor
  refine ⟨hid.registered, p, image, c, hp, himage, hcontext, hentry, hholds, ?_, ?_, rfl, ?_,
    fun addr => (Heap.readBlock_of_ofSize hblocks _ _).symm⟩
  · rw [hcursor]
    exact hentry
  · rw [Stack.slots, Stack.length, htop]
    rfl
  · rw [hblocks]
    exact Pile.shows_ofSize _

/-- A process at rest is depicted when it begins a quantum. -/
theorem Rests.depicts (hrests : Rests program image c k.2 i) (h : Housed none held k)
    (hp : k.1.process? id = some p) (himage : p.image = some image) (hcontext : p.context = some c)
    (breaks : String → Bool) (hlength : program.length = image.length) :
    (bridge id image held program breaks hlength i.calls).Depicts
      (machineOf c image k).recording i := by
  have hrunning := h.running hp himage hcontext
  have hkept := h.furnished.kept id p c hp (by simp) hcontext
  refine ⟨⟨k.1.regions (some id) ++ held,
      ⟨hrunning.housed.furnished, hrunning.program, .refl _⟩, ?_⟩, hrests.program,
    hkept.plain.inOrder hkept.top_le, hkept.tiled, hrests.cursor, hrests.operands,
    ?_, hrests.shows, hrests.texts, (List.append_nil _).symm⟩
  · refine hrunning.housed.owns.perm ((List.perm_append_comm_assoc _ _ _).trans ?_)
    exact List.perm_middle.append_left _
  · rw [hrests.returns]
    exact Stack.returns_of_depth_eq_zero hkept.plain.depth

/-! ### Ends -/

/-- The process is on record and has ended. -/
def Gone (id : Nat) (k : Kernel) : Prop :=
  ∃ p, k.1.process? id = some p ∧ p.halted = true

/-- The process is on record and does not run any more. -/
def Hung (id : Nat) (k : Kernel) : Prop :=
  ∃ p, k.1.process? id = some p ∧ p.active = false

theorem Gone.not_registered (h : Gone id k) (hs : k.1.Orderly ∅) : ¬ k.1.IsRegistered id := by
  obtain ⟨p, hp, hhalted⟩ := h
  rw [hs.registered_iff_of_record hp, hhalted]
  exact Bool.true_eq_false_eq_False

theorem Gone.hung (h : Gone id k) (hs : k.1.Orderly ∅) : Hung id k := by
  obtain ⟨p, hp, hhalted⟩ := h
  exact ⟨p, hp, (hs.recorded.bare id p hp hhalted).active⟩

theorem Gone.follows (h : Gone id k) (hfollows : k.1.Follows k'.1) : Gone id k' := by
  obtain ⟨p, hp, hhalted⟩ := h
  obtain ⟨q, hq, hkept, -⟩ := hfollows.kept id p hp
  exact ⟨q, hq, hkept hhalted⟩

theorem Hung.isIdle (h : Hung id k) : k.1.isIdle id := by
  obtain ⟨p, hp, hactive⟩ := h
  simp [System.isIdle, hp, Process.isIdle, hactive]

/-! ### Quanta of the process -/

/-- What its program does in a quantum is what the machine without memory does with as many
instructions. -/
theorem Rests.run (hrests : Rests program image c k.2 i) (hready : Ready k id p image c)
    (h : Housed none held k) (hprints : ∀ x ∈ quantumLog id budget k, x.call.IsPrint)
    (hroom : ∀ e, (execute id budget k).1 = .faulted e → ¬ e.IsShortage)
    {breaks : String → Bool} (hbreaks : k.1.console.sink.BreaksAt id breaks)
    {y : EStateM.Result Fault (Ideal Pile) Outcome}
    (hy : (Ideal.Setting.printing id program breaks).run
      (quantumSpent id budget k) i = y) :
    (execute id budget k).1 = quantumOfEnd y ∧
      (reached y).calls = i.calls ++ (quantumLog id budget k).map (·.call) ∧
      ∃ m, reached (runEnd id budget image c (ticked id k)) = m ∧
        Rests program image { heap := m.heap, stack := m.stack, cursor := some m.cursor } m.arena
          (reached y) := by
  have hrecord := process?_ticked hready.record
  have hlength : program.length = image.length := by
    rw [← hrests.program]
    exact ByteStore.length_read _ _ _
  have hplain : (machineOf c image (ticked id k)).stack.Plain :=
    (h.furnished.kept id p c hready.record (by simp) hready.context).plain
  have hdepicts := Rests.depicts (k := ticked id k) hrests (h.ticked id) hrecord hready.image
    hready.context breaks hlength
  -- The run is the same with the instructions alone that it carries out.
  have hrun := Runner.run_spent (r := ⟨id, image, host⟩) hplain budget
  have hlog := Runner.transcript_spent (r := ⟨id, image, host⟩) hplain budget
  have hended : (execute id budget k).1 =
      quantumOfEnd (runEnd id budget image c (ticked id k)) := by
    rw [hready.execute, runQuantum_eq]
  rw [hready.quantumLog] at hprints ⊢
  rw [hready.quantumSpent] at hy
  generalize Runner.spent ⟨id, image, host⟩ budget (machineOf c image (ticked id k)) = spent at *
  have hechoes := (voiced_host id image).echoes budget (machineOf c image (ticked id k))
  have hanswers := Ideal.Setting.answers_printing id program hechoes hbreaks hprints
    i.calls
  rw [← hlog] at hanswers
  obtain ⟨hsame, n, hforget, hlog', hend⟩ := hdepicts.run hanswers fun e m herror => by
    refine hroom e (hended.trans ?_)
    rw [runEnd, ← hrun]
    exact congrArg quantumOfEnd herror
  have hreached : reached (runEnd id budget image c (ticked id k)) = n.forget := by
    rw [runEnd, ← hrun]
    exact hforget.symm
  have hframes : (reached (runEnd id budget image c (ticked id k))).stack.Plain :=
    ((h.ticked id).running_runEnd hrecord hready.image hready.context budget).plain
  rw [hreached] at hframes
  have hlog : n.host.2 = runLog id budget image c (ticked id k) := hlog'.trans hlog
  have hcalls := hend.calls
  rw [hlog] at hcalls
  subst hy
  refine ⟨?_, hcalls, n.forget, hreached, hend.program, hend.cursor, hend.operands, ?_, hend.shows,
    hend.texts⟩
  · rw [hended, runEnd, ← hrun]
    exact hsame
  · exact hend.returns.symm.trans (Stack.returns_of_depth_eq_zero hframes.depth)

/-- A process with a program that is not hung is ready to run. -/
theorem Resting.ready_or_hung (hid : Resting program entry id k i) :
    (∃ p image c, Ready k id p image c ∧ image.entry = entry ∧ Rests program image c k.2 i) ∨
      Hung id k := by
  obtain ⟨p, image, c, hp, himage, hcontext, hentry, hrests⟩ := hid.rests
  cases hactive : p.active with
  | true => exact .inl ⟨p, image, c, ⟨hp, hactive, himage, hcontext⟩, hentry, hrests⟩
  | false => exact .inr ⟨p, hp, hactive⟩

/-- An end that takes the process along. -/
theorem gone_settle (hs : k.1.Orderly ∅) (hid : k.1.IsRegistered id) {quantum : Quantum}
    (htakes : Takes k.1 id id quantum) : Gone id (settle id quantum k) := by
  obtain ⟨p, hp, -⟩ := hs.recorded.alive id hid
  refine ⟨p.halt, ?_, rfl⟩
  rw [(settled_settle hs hid quantum).halted id htakes, hp]
  rfl

/-- The record of a process that stops has its image as before, and the context as the machine
leaves it. -/
theorem Ready.exists_suspended (hready : Ready k id p image c) {m : Machine System}
    (hm : Running id image held (ticked id k) m) :
    ∃ q, (Kernel.suspend id m).1.process? id = some q ∧ q.image = some image ∧
      q.context = some { heap := m.heap, stack := m.stack, cursor := some m.cursor } := by
  obtain ⟨q, hq, hstays, -⟩ := hm.leaves.stays id p.tick (process?_ticked hready.record)
  refine ⟨handBack m q, System.process?_modify_self hq _, ?_, ?_⟩
  · exact (hstays.image (by rw [Process.tick, Process.age, hready.image]; simp)).trans hready.image
  · rw [handBack, hstays.context, Process.tick, Process.age, hready.context]
    rfl

/-- A quantum moves the process as the machine without memory moves, unless it ends. -/
theorem Rests.execute (hrests : Rests program image c k.2 i) (hentry : image.entry = entry)
    (hready : Ready k id p image c) (hid : k.1.IsRegistered id) (h : Housed none held k)
    (hs : k.1.Orderly ∅)
    (hprints : ∀ x ∈ quantumLog id budget k, x.call.IsPrint)
    (hroom : ∀ e, (execute id budget k).1 = .faulted e → ¬ e.IsShortage)
    {breaks : String → Bool} (hbreaks : k.1.console.sink.BreaksAt id breaks)
    {y : EStateM.Result Fault (Ideal Pile) Outcome}
    (hy : (Ideal.Setting.printing id program breaks).run
      (quantumSpent id budget k) i = y) :
    Gone id (execute id budget k).2 ∨
      Resting program entry id (execute id budget k).2 (reached y) ∧
        (Hung id (execute id budget k).2 ∨ ∃ j, y = .ok .yielded j) := by
  obtain ⟨hended, -, m, hm, hstays⟩ := hrests.run hready h hprints hroom hbreaks hy
  have hrunning := (h.ticked id).running_runEnd (process?_ticked hready.record) hready.image
    hready.context budget
  have horderly := orderly_suspend (orderly_ticked hs id) id budget image c
  have hstopped := hready.stopped h hs budget
  have hquantum : quantumOfEnd (runEnd id budget image c (ticked id k)) = quantumOfEnd y := by
    rw [← hended, hready.execute, runQuantum_eq]
  rw [hready.execute, runQuantum_eq]
  simp only [hquantum]
  rw [hm] at hrunning horderly hstopped ⊢
  have hregistered : (Kernel.suspend id m).1.IsRegistered id :=
    (hstopped.registered id).2 (.inl hid)
  obtain ⟨q, hback, himage, hcontext⟩ := hready.exists_suspended hrunning
  cases y with
  | error e j => exact .inl (gone_settle horderly hregistered .self)
  | ok outcome j =>
    cases outcome with
    | yielded =>
      exact .inr ⟨⟨hregistered, _, image, _, hback, himage, hcontext, hentry, hstays⟩,
        .inr ⟨j, rfl⟩⟩
    | finished =>
      have hhung : (settle id .finished (Kernel.suspend id m)).1.process? id =
          some q.hang :=
        System.process?_modify_self hback _
      exact .inr ⟨⟨hregistered, _, image, _, hhung, himage, hcontext, hentry, hstays⟩,
        .inl ⟨_, hhung, rfl⟩⟩
    | halted recursive =>
      cases recursive with
      | false => exact .inl (gone_settle horderly hregistered rfl)
      | true => exact .inl (gone_settle horderly hregistered .self)

/-! ### Quanta of other processes -/

/-- The bytes of everyone else are spared in a quantum. -/
theorem spares_execute (h : Housed none held k) (hs : k.1.Orderly ∅) (id budget : Nat) :
    Arena.Spares (k.1.regions (some id) ++ held) k.2 (execute id budget k).2.2 := by
  rcases h.ready_or_idle hs id with ⟨p, image, context, hready⟩ | hidle
  · rw [hready.execute, runQuantum_eq]
    exact (hready.stopped h hs budget).spares.trans ((sameBytes_settle id _ _).spares _)
  · rw [execute_of_isIdle budget hidle]
    exact .refl _ _

theorem Resting.execute_other {j : Nat} (hid : Resting program entry id k i)
    (h : Housed none held k) (hs : k.1.Orderly ∅) (hne : j ≠ id) (budget : Nat) :
    Gone id (execute j budget k).2 ∨
      Resting program entry id (execute j budget k).2 i ∧
        (Hung id k → Hung id (execute j budget k).2) := by
  have hcontained := h.contained_execute hs j budget
  have h' := steady_execute_housed j budget k h
  have hspares := spares_execute h hs j budget
  by_cases hremoved : (execute j budget k).1.Removes k.1 (execute j budget k).2.1 j id
  · exact .inl (hcontained.removed id hremoved).2
  · obtain ⟨p, image, c, hp, himage, hcontext, hentry, hrests⟩ := hid.rests
    have huntouched := hcontained.untouched id hne.symm hid.registered hremoved
    obtain ⟨q, hq, hstays, -⟩ := huntouched.record p hp
    have hkept := h.furnished.kept id p c hp (by simp) hcontext
    have hprogram : image.region ∈ k.1.regions (some j) ++ held :=
      List.mem_append_left _ (List.mem_append_right _
        (System.mem_programs.2 ⟨id, p, image, hp, himage, rfl⟩))
    refine .inr ⟨⟨(hcontained.registered id).2 ⟨.inl hid.registered, hremoved⟩, q, image, c, hq, ?_,
      hstays.context.trans hcontext, hentry, ?_⟩, ?_⟩
    · exact (hstays.image (himage ▸ Option.some_ne_none image)).trans himage
    · refine ⟨hrests.program.of_spares hspares hprogram, hrests.cursor, ?_, hrests.returns,
        hrests.shows, fun addr => ?_⟩
      · refine (Stack.slots_of_spares (hkept.plain.inOrder hkept.top_le)
          (huntouched.bytes p c hp hcontext) ?_).trans hrests.operands
        exact List.mem_cons_of_mem _ List.mem_cons_self
      · rw [(huntouched.heap p c hp hcontext).2]
        exact hrests.texts addr
    · rintro ⟨p', hp', hactive⟩
      obtain rfl := Option.some.inj (hp.symm.trans hp')
      exact ⟨q, hq, hstays.active.trans hactive⟩

end Kernel

end BytecodeKernel
