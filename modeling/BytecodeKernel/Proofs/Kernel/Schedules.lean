import BytecodeKernel.Proofs.Kernel.Reachable
import BytecodeKernel.Proofs.Kernel.Residents
import Mathlib.Algebra.Ring.Nat
/-!
Schedules make no difference. A process that only prints does what its program does on its own, with
as many instructions as it was given in all its quanta: in whatever portions it got them, whoever
ran in between, and wherever in the arena its regions were.
-/

namespace BytecodeKernel.Kernel

/-! ### What is seen of a process -/

/-- The instructions that a process was given. -/
def spentBy (id : Nat) (stints : List Stint) : Nat :=
  ((stints.filter (·.process = id)).map (·.spent)).sum

/-- How the last quantum ended in which a process ran. -/
def lastEnd? (id : Nat) (stints : List Stint) : Option Quantum :=
  ((stints.filter fun x => x.process = id ∧ x.ended ≠ .idle).getLast?).map (·.ended)

/-- The process asks for nothing but to print, and has room for what it allocates. -/
structure KeepsToItself (id : Nat) (stints : List Stint) : Prop where
  prints : ∀ x ∈ stints, x.process = id → ∀ y ∈ x.requests, y.call.IsPrint
  room : ∀ x ∈ stints, x.process = id → ∀ e, x.ended = .faulted e → ¬ e.IsShortage

/-- Between two kernels the process has printed these texts, its last quantum ended like this, and
if it is still registered it stands there with these operands. -/
structure Tallies (id entry : Nat) (k : Kernel) (stints : List Stint) (k' : Kernel)
    (account : Account) : Prop where
  texts : k'.1.console.linesFrom id = k.1.console.linesFrom id ++ account.texts
  place : k'.1.IsRegistered id → ∃ p c, k'.1.process? id = some p ∧ p.context = some c ∧
    c.cursor.getD entry = account.cursor ∧ c.stack.operands k'.2 = account.operands
  ended : ∀ quantum, lastEnd? id stints = some quantum → quantum = account.ended

variable {id entry budget : Nat} {program : List UInt8} {held : List (Nat × Nat)}
  {start k k' : Kernel} {stints more : List Stint} {x : Stint}

theorem spentBy_snoc (id : Nat) (stints : List Stint) (x : Stint) :
    spentBy id (stints ++ [x]) = spentBy id stints + if x.process = id then x.spent else 0 := by
  rw [spentBy, List.filter_append, List.map_append, List.sum_append]
  by_cases hx : x.process = id <;> simp [hx, spentBy]

theorem lastEnd?_snoc (id : Nat) (stints : List Stint) (x : Stint) :
    lastEnd? id (stints ++ [x]) =
      if x.process = id ∧ x.ended ≠ .idle then some x.ended else lastEnd? id stints := by
  rw [lastEnd?, List.filter_append]
  by_cases hx : x.process = id ∧ x.ended ≠ .idle
  · simp [hx]
  · rw [if_neg hx, List.filter_singleton]
    simp [hx, lastEnd?]

theorem KeepsToItself.of_cons (h : KeepsToItself id (x :: stints)) :
    KeepsToItself id [x] ∧ KeepsToItself id stints := by
  refine ⟨⟨fun y hy => h.prints y ?_, fun y hy => h.room y ?_⟩,
    fun y hy => h.prints y (List.mem_cons_of_mem _ hy),
    fun y hy => h.room y (List.mem_cons_of_mem _ hy)⟩ <;>
  · rw [List.mem_singleton.1 hy]
    exact List.mem_cons_self

/-! ### In step with the machine without memory -/

/-- From one kernel to a later one a process has done as much of its program as it was given
instructions for. -/
structure Pace (program : List UInt8) (entry id : Nat) (breaks : String → Bool) (start : Kernel)
    (stints : List Stint) (k : Kernel) (y : EStateM.Result Fault (Ideal Pile) Outcome) : Prop where
  recital : Ideal.recital id program entry breaks (spentBy id stints) = y
  sink : k.1.console.sink.BreaksAt id breaks
  lines : k.1.console.linesFrom id = start.1.console.linesFrom id ++
    heard breaks (reached y).calls
  ended : ∀ quantum, lastEnd? id stints = some quantum → quantum = quantumOfEnd y
  standing : Gone id k ∨ Resting program entry id k (reached y) ∧ (Hung id k ∨ ∀ budget,
    Ideal.recital id program entry breaks (spentBy id stints + budget) =
      (Ideal.Setting.printing id program breaks).run budget (reached y))

variable {breaks : String → Bool} {y : EStateM.Result Fault (Ideal Pile) Outcome}

theorem quantumOfEnd_ne_idle {τ : Type} (y : EStateM.Result Fault τ Outcome) :
    quantumOfEnd y ≠ .idle := by
  cases y with
  | error e i => simp [quantumOfEnd]
  | ok outcome i => cases outcome <;> simp [quantumOfEnd, quantumOf]

/-- The process has not begun. -/
theorem Fresh.pace (hid : Fresh program entry id k) (h : Housed none held k)
    (hbreaks : k.1.console.sink.BreaksAt id breaks) :
    Pace program entry id breaks k [] k (Ideal.recital id program entry breaks 0) := by
  have hbeginning : reached (Ideal.recital id program entry breaks 0) = .beginning entry :=
    Ideal.Setting.reached_run_zero _
  refine ⟨rfl, hbreaks, ?_, by simp [lastEnd?], .inr ⟨?_, .inr fun budget => ?_⟩⟩
  · rw [hbeginning]
    exact (List.append_nil _).symm
  · rw [hbeginning]
    exact hid.resting h
  · rw [hbeginning, show spentBy id [] = 0 from rfl, Nat.zero_add]
    rfl

/-- Nothing happens to the process and its bytes but that its record is labelled anew. -/
theorem Pace.overlook (hpace : Pace program entry id breaks start stints k y)
    (harena : k'.2 = k.2) (hconsole : k'.1.console = k.1.console)
    (hregistry : k'.1.registry = k.1.registry)
    (hrecord : ∀ p, k.1.process? id = some p → ∃ q, k'.1.process? id = some q ∧ q.image = p.image ∧
      q.context = p.context ∧ q.active = p.active ∧ q.halted = p.halted) :
    Pace program entry id breaks start stints k' y := by
  have hhung : Hung id k → Hung id k' := by
    rintro ⟨p, hp, hactive⟩
    obtain ⟨q, hq, -, -, hsame, -⟩ := hrecord p hp
    exact ⟨q, hq, hsame.trans hactive⟩
  refine ⟨hpace.recital, ?_, ?_, hpace.ended,
    hpace.standing.imp ?_ (And.imp ?_ (Or.imp_left hhung))⟩
  · rw [hconsole]
    exact hpace.sink
  · rw [hconsole]
    exact hpace.lines
  · rintro ⟨p, hp, hhalted⟩
    obtain ⟨q, hq, -, -, -, hsame⟩ := hrecord p hp
    exact ⟨q, hq, hsame.trans hhalted⟩
  · rintro ⟨hregistered, p, image, c, hp, himage, hcontext, hentry, hrests⟩
    obtain ⟨q, hq, himage', hcontext', -⟩ := hrecord p hp
    refine ⟨(System.isRegistered_congr hregistry id).2 hregistered, q, image, c, hq,
      himage'.trans himage, hcontext'.trans hcontext, hentry, ?_⟩
    rw [harena]
    exact hrests

/-- A quantum of another process. -/
theorem Pace.execute_other {j : Nat} (hpace : Pace program entry id breaks start stints k y)
    (h : Housed none held k) (hs : k.1.Orderly ∅) (hne : j ≠ id) (budget : Nat) :
    Pace program entry id breaks start (stints ++ [stint j budget k]) (execute j budget k).2 y := by
  have hechoes := echoes_execute h hs j budget
  have hspent : spentBy id (stints ++ [stint j budget k]) = spentBy id stints := by
    rw [spentBy_snoc, if_neg (show (stint j budget k).process ≠ id from hne), Nat.add_zero]
  refine ⟨?_, hechoes.sink ▸ hpace.sink, ?_, fun quantum hquantum => ?_, ?_⟩
  · rw [hspent]
    exact hpace.recital
  · rw [hechoes.others id hne.symm]
    exact hpace.lines
  · rw [lastEnd?_snoc, if_neg fun hx => hne hx.1] at hquantum
    exact hpace.ended quantum hquantum
  · rw [hspent]
    rcases hpace.standing with hgone | ⟨hresting, hmore⟩
    · have htracks : Tracks ∅ k.1 (execute j budget k).2 :=
        Tracks.execute ⟨hs, .refl _⟩ j budget
      exact .inl (hgone.follows htracks.follows)
    · rcases hresting.execute_other h hs hne budget with hgone | ⟨hresting', hhung⟩
      · exact .inl hgone
      · exact .inr ⟨hresting', hmore.imp_left hhung⟩

/-- A quantum of the process when it does not run any more. -/
theorem Pace.execute_idle (hpace : Pace program entry id breaks start stints k y)
    (hidle : k.1.isIdle id) (budget : Nat) :
    Pace program entry id breaks start (stints ++ [stint id budget k]) (execute id budget k).2
      y := by
  have hspent : spentBy id (stints ++ [⟨id, 0, [], .idle⟩]) = spentBy id stints := by
    simp [spentBy_snoc]
  rw [stint_of_isIdle hidle, execute_of_isIdle budget hidle]
  refine ⟨?_, hpace.sink, hpace.lines, fun quantum hquantum => ?_, ?_⟩
  · rw [hspent]
    exact hpace.recital
  · rw [lastEnd?_snoc, if_neg (by simp)] at hquantum
    exact hpace.ended quantum hquantum
  · rw [hspent]
    exact hpace.standing

/-- A quantum of the process in which it runs. -/
theorem Pace.execute_ready {p : Process} {image : Image} {c : Context}
    (hpace : Pace program entry id breaks start stints k y) (h : Housed none held k)
    (hs : k.1.Orderly ∅) (hready : Ready k id p image c) (hentry : image.entry = entry)
    (hrests : Rests program image c k.2 (reached y)) (hid : k.1.IsRegistered id)
    (hmore : ∀ budget,
      Ideal.recital id program entry breaks (spentBy id stints + budget) =
        (Ideal.Setting.printing id program breaks).run budget (reached y))
    (hkeeps : KeepsToItself id [stint id budget k]) :
    Pace program entry id breaks start (stints ++ [stint id budget k]) (execute id budget k).2
      (Ideal.recital id program entry breaks
        (spentBy id (stints ++ [stint id budget k]))) := by
  have hspent : spentBy id (stints ++ [stint id budget k]) =
      spentBy id stints + quantumSpent id budget k := by
    rw [spentBy_snoc, if_pos (show (stint id budget k).process = id from rfl)]
    rfl
  have hprints := hkeeps.prints _ List.mem_cons_self rfl
  have hroom := hkeeps.room _ List.mem_cons_self rfl
  have hrun := hmore (quantumSpent id budget k)
  rw [← hspent] at hrun
  have hechoes := echoes_execute h hs id budget
  obtain ⟨hended, hcalls, -⟩ := hrests.run hready h hprints hroom hpace.sink hrun.symm
  have hstands := hrests.execute hentry hready hid h hs hprints hroom hpace.sink hrun.symm
  refine ⟨rfl, hechoes.sink ▸ hpace.sink, ?_, fun quantum hquantum => ?_,
    hstands.imp_right (And.imp_right (Or.imp_right ?_))⟩
  · rw [hechoes.lines breaks hpace.sink, hpace.lines, hcalls, List.append_assoc, heard, heard,
      heard, List.filterMap_append]
  · rw [lastEnd?_snoc] at hquantum
    split at hquantum
    · exact (Option.some.inj hquantum).symm.trans hended
    · rename_i hidle
      exact absurd ⟨rfl, fun heq => quantumOfEnd_ne_idle _ (hended.symm.trans heq)⟩ hidle
  · rintro ⟨j, hyielded⟩ budget
    rw [hyielded]
    exact Ideal.Setting.run_add hyielded budget

/-- A quantum of the process, whether it runs or not. -/
theorem Pace.execute_self (hpace : Pace program entry id breaks start stints k y)
    (h : Housed none held k) (hs : k.1.Orderly ∅) (budget : Nat)
    (hkeeps : KeepsToItself id [stint id budget k]) :
    ∃ z, Pace program entry id breaks start (stints ++ [stint id budget k])
      (execute id budget k).2 z := by
  rcases hpace.standing with hgone | ⟨hresting, hhung | hmore⟩
  · exact ⟨y, hpace.execute_idle (hgone.hung hs).isIdle budget⟩
  · exact ⟨y, hpace.execute_idle hhung.isIdle budget⟩
  · rcases hresting.ready_or_hung with ⟨p, image, c, hready, hentry, hrests⟩ | hhung
    · exact ⟨_, hpace.execute_ready h hs hready hentry hrests hresting.registered hmore hkeeps⟩
    · exact ⟨y, hpace.execute_idle hhung.isIdle budget⟩

/-- The process keeps its pace whatever the schedule. -/
theorem Pace.unfolds (hunfolds : Unfolds k more k')
    (hpace : Pace program entry id breaks start stints k y) (h : Housed none held k)
    (hs : k.1.Orderly ∅) (hkeeps : KeepsToItself id more) :
    ∃ z, Pace program entry id breaks start (stints ++ more) k' z := by
  induction hunfolds generalizing stints y with
  | refl k =>
    rw [List.append_nil]
    exact ⟨y, hpace⟩
  | @relabel k k' more j f hf hactive _ ih =>
    refine ih (hpace.overlook rfl rfl rfl fun p hp => ?_) (h.relabel hf)
      (hs.modify fun p _ => (hf p).quiet).1 hkeeps
    refine ⟨_, System.process?_modify_of_eq_some hp, ?_⟩
    split
    · exact ⟨(hf p).image, (hf p).context, hactive p, (hf p).halted⟩
    · exact ⟨rfl, rfl, rfl, rfl⟩
  | @staff k k' more workers horderly _ ih =>
    exact ih (hpace.overlook rfl rfl rfl fun p hp => ⟨p, hp, rfl, rfl, rfl, rfl⟩)
      (h.congr rfl (Nat.le_refl _)) (horderly hs) hkeeps
  | @execute k k' more j budget _ ih =>
    obtain ⟨hfirst, hrest⟩ := hkeeps.of_cons
    have hstep : ∃ z, Pace program entry id breaks start (stints ++ [stint j budget k])
        (Kernel.execute j budget k).2 z := by
      by_cases hj : j = id
      · subst hj
        exact hpace.execute_self h hs budget hfirst
      · exact ⟨y, hpace.execute_other h hs hj budget⟩
    obtain ⟨z, hz⟩ := hstep
    have htracks : Tracks ∅ k.1 (Kernel.execute j budget k).2 :=
      Tracks.execute ⟨hs, .refl _⟩ j budget
    have hend := ih hz (steady_execute_housed j budget k h) htracks.orderly hrest
    rwa [List.append_assoc] at hend

/-- What is seen of a process that keeps its pace. -/
theorem Pace.tallies (hpace : Pace program entry id breaks start stints k y)
    (h : Housed none held k) (hs : k.1.Orderly ∅) :
    Tallies id entry start stints k (Ideal.account breaks y) := by
  refine ⟨hpace.lines, fun hid => ?_, hpace.ended⟩
  rcases hpace.standing with hgone | ⟨hresting, -⟩
  · exact absurd hid (hgone.not_registered hs)
  · obtain ⟨p, image, c, hp, himage, hcontext, rfl, hrests⟩ := hresting.rests
    have hkept := h.furnished.kept id p c hp (by simp) hcontext
    refine ⟨p, c, hp, hcontext, hrests.cursor, ?_⟩
    refine (Stack.operands_eq_slots hkept.top_le h.owns ?_).trans hrests.operands
    exact mem_regions_of_context hp (by simp) hcontext (List.mem_cons_of_mem _ List.mem_cons_self) _

theorem Op.Schedules.not_isBindImage {op : Op} (h : op.Schedules) : ¬ op.IsBindImage := by
  cases op with
  | bindImage id image kept => exact h.elim
  | _ => exact fun hbind => hbind.elim

/-- What is seen of a process after operations that schedule is what its program does with as many
instructions on the machine without memory. -/
theorem tallies_of_schedule (h : Reachable held k) (hid : Fresh program entry id k)
    (hbreaks : k.1.console.sink.BreaksAt id breaks) {ops : List Op}
    (hops : ∀ op ∈ ops, op.Schedules) (hkeeps : KeepsToItself id (stintsOf ops k)) :
    Tallies id entry k (stintsOf ops k) (performAll k ops)
      (Ideal.account breaks
        (Ideal.recital id program entry breaks (spentBy id (stintsOf ops k)))) := by
  have hend := h.performAll fun op hop => (hops op hop).not_isBindImage
  obtain ⟨y, hpace⟩ :=
    (hid.pace h.housed hbreaks).unfolds (unfolds_performAll hops k) h.housed h.orderly
    hkeeps
  rw [List.nil_append] at hpace
  rw [hpace.recital]
  exact hpace.tallies hend.housed hend.orderly

/-- Two schedules that give a process as many instructions are the same to it, in whatever kernels
they are carried out: what is seen of it is what its program does with those instructions on its
own, in any arena that has room for it. The consoles panic at the same texts of the process, if at
any, and at those of others as they like. -/
theorem independent_of_schedule {held₁ held₂ : List (Nat × Nat)} {k₁ k₂ : Kernel}
    (h₁ : Reachable held₁ k₁) (h₂ : Reachable held₂ k₂) (hid₁ : Fresh program entry id k₁)
    (hid₂ : Fresh program entry id k₂) (hbreaks₁ : k₁.1.console.sink.BreaksAt id breaks)
    (hbreaks₂ : k₂.1.console.sink.BreaksAt id breaks) {ops₁ ops₂ : List Op}
    (hops₁ : ∀ op ∈ ops₁, op.Schedules) (hops₂ : ∀ op ∈ ops₂, op.Schedules)
    (hkeeps₁ : KeepsToItself id (stintsOf ops₁ k₁)) (hkeeps₂ : KeepsToItself id (stintsOf ops₂ k₂))
    (hsame : spentBy id (stintsOf ops₂ k₂) = spentBy id (stintsOf ops₁ k₁)) :
    ∃ account, Tallies id entry k₁ (stintsOf ops₁ k₁) (performAll k₁ ops₁) account ∧
      Tallies id entry k₂ (stintsOf ops₂ k₂) (performAll k₂ ops₂) account ∧
      ∀ heapBytes stackBytes capacity limit solo,
        Solo.create id program entry heapBytes stackBytes breaks (.withLimit capacity limit) =
          .ok solo →
        (∀ e m, solo.runner.run (spentBy id (stintsOf ops₁ k₁)) solo.machine = .error e m →
          ¬ e.IsShortage) →
        solo.account (spentBy id (stintsOf ops₁ k₁)) = account := by
  refine ⟨_, tallies_of_schedule h₁ hid₁ hbreaks₁ hops₁ hkeeps₁, ?_, ?_⟩
  · have htallies := tallies_of_schedule h₂ hid₂ hbreaks₂ hops₂ hkeeps₂
    rwa [hsame] at htallies
  · intro heapBytes stackBytes capacity limit solo hcreate hroom
    exact Solo.account_eq (Arena.owns_withLimit capacity limit) hcreate hroom

/-! ### One process on two schedules -/

/-- Prints a text of its own, and adds. -/
def refrainProgram : List UInt8 :=
  [28, 0, 2, 104, 105, 29, 0, 0, 0, 0, 7, 0, 0, 0, 0, 8, 5]

/-- The kernel with two processes that have the program. -/
def withRefrains (k : Kernel) : Kernel :=
  performAll k [.generate none, .bindProgram 0 refrainProgram, .generate none,
    .bindProgram 1 refrainProgram]

/-- The kernel of the family, under one worker. -/
def loneKernel : Kernel :=
  ({ settings := { familySettings with workers := 1 }
     workers := [{ priority := 2000 }]
     console := {} }, .withLimit 65536 65536)

/-- The client lets the processes run, a few instructions at a time. -/
def refrainTurns : List Op :=
  [.execute 0 2, .execute 1 3, .execute 0 1, .execute 1 9, .execute 0 2]

/-- The worker serves both, in passes that are too short for the program of the first. -/
def refrainPasses : List Op :=
  [.dispatch 1, .setPriority 0 1, .dispatch 0, .setWorkerPriority 0 300, .runPass, .runPass]

theorem Reachable.withRefrains (h : Reachable held k) : Reachable held (withRefrains k) := by
  apply h.performAll
  simp [Op.IsBindImage]

/-- A process that has not begun, by what is on its record. -/
theorem fresh_of_record (hid : k.1.IsRegistered id)
    (hrecord : ((k.1.process? id).bind fun p => p.image.bind fun image => p.context.map fun c =>
      (image.entry, k.2.store.read image.base image.length, c.cursor)) =
        some (entry, program, none)) : Fresh program entry id k := by
  obtain ⟨p, hp, hrecord⟩ := Option.bind_eq_some_iff.1 hrecord
  obtain ⟨image, himage, hrecord⟩ := Option.bind_eq_some_iff.1 hrecord
  obtain ⟨c, hcontext, hrecord⟩ := Option.map_eq_some_iff.1 hrecord
  simp only [Prod.mk.injEq] at hrecord
  exact ⟨hid, p, image, c, hp, himage, hcontext, hrecord.1, hrecord.2.1, hrecord.2.2⟩

theorem stintsOf_refrainTurns : stintsOf refrainTurns (withRefrains familyKernel) =
    [⟨0, 2, [⟨.print 0 "hi", .ok 0⟩], .yielded⟩, ⟨1, 3, [⟨.print 1 "hi", .ok 0⟩], .yielded⟩,
      ⟨0, 1, [], .yielded⟩, ⟨1, 2, [], .finished⟩, ⟨0, 2, [], .finished⟩] := by
  decide +kernel

theorem stintsOf_refrainPasses : stintsOf refrainPasses (withRefrains loneKernel) =
    [⟨1, 5, [⟨.print 1 "hi", .ok 0⟩], .finished⟩, ⟨0, 3, [⟨.print 0 "hi", .ok 0⟩], .yielded⟩,
      ⟨0, 2, [], .finished⟩] := by
  decide +kernel

/-- Three quanta of a process under two workers and two under one, with another process between
them, come to what its program does on its own in a smaller arena. -/
theorem independent_of_refrains :
    Reachable [] (withRefrains familyKernel) ∧ Reachable [] (withRefrains loneKernel) ∧
      Fresh refrainProgram 0 0 (withRefrains familyKernel) ∧
      Fresh refrainProgram 0 0 (withRefrains loneKernel) ∧
      KeepsToItself 0 (stintsOf refrainTurns (withRefrains familyKernel)) ∧
      KeepsToItself 0 (stintsOf refrainPasses (withRefrains loneKernel)) ∧
      Tallies 0 0 (withRefrains familyKernel) (stintsOf refrainTurns (withRefrains familyKernel))
        (performAll (withRefrains familyKernel) refrainTurns) ⟨["hi"], 17, [15], .finished⟩ ∧
      Tallies 0 0 (withRefrains loneKernel) (stintsOf refrainPasses (withRefrains loneKernel))
        (performAll (withRefrains loneKernel) refrainPasses) ⟨["hi"], 17, [15], .finished⟩ := by
  have hfamily : Reachable [] (withRefrains familyKernel) :=
    (Reachable.create (show Kernel.create familySettings = .ok familyKernel from rfl)).withRefrains
  have hlone : Reachable [] (withRefrains loneKernel) :=
    (Reachable.create (show Kernel.create { familySettings with workers := 1 } = .ok loneKernel
      from rfl)).withRefrains
  have hfresh₁ : Fresh refrainProgram 0 0 (withRefrains familyKernel) :=
    fresh_of_record (by decide +kernel) (by decide +kernel)
  have hfresh₂ : Fresh refrainProgram 0 0 (withRefrains loneKernel) :=
    fresh_of_record (by decide +kernel) (by decide +kernel)
  have hkeeps₁ : KeepsToItself 0 (stintsOf refrainTurns (withRefrains familyKernel)) := by
    rw [stintsOf_refrainTurns]
    constructor <;> simp [HostCall.IsPrint]
  have hkeeps₂ : KeepsToItself 0 (stintsOf refrainPasses (withRefrains loneKernel)) := by
    rw [stintsOf_refrainPasses]
    constructor <;> simp [HostCall.IsPrint]
  have hspent : spentBy 0 (stintsOf refrainTurns (withRefrains familyKernel)) = 5 := by
    rw [stintsOf_refrainTurns]
    decide
  obtain ⟨account, htallies₁, htallies₂, hsolo⟩ := independent_of_schedule hfamily hlone hfresh₁
    hfresh₂ (Sink.breaksAt_buffer 0) (Sink.breaksAt_buffer 0)
    (by simp [refrainTurns, Op.Schedules]) (by simp [refrainPasses, Op.Schedules]) hkeeps₁ hkeeps₂
    (by rw [stintsOf_refrainTurns, stintsOf_refrainPasses]; decide)
  have halone :
      (match Solo.create 0 refrainProgram 0 32 64 (fun _ => false) (.withLimit 4096 4096) with
        | .ok solo => some (solo.account 5)
        | .error _ => none) = some ⟨["hi"], 17, [15], .finished⟩ := by
    decide +kernel
  cases hcreate : Solo.create 0 refrainProgram 0 32 64 (fun _ => false) (.withLimit 4096 4096) with
  | error e => simp [hcreate] at halone
  | ok solo =>
    have haccount : solo.account 5 = ⟨["hi"], 17, [15], .finished⟩ := by
      simpa only [hcreate, Option.some.injEq] using halone
    have hsame := hsolo 32 64 4096 4096 solo hcreate fun e m hfault => by
      have hended := congrArg Account.ended haccount
      rw [hspent] at hfault
      simp only [Solo.account, hfault] at hended
      cases hended
    rw [hspent, haccount] at hsame
    subst hsame
    exact ⟨hfamily, hlone, hfresh₁, hfresh₂, hkeeps₁, hkeeps₂, htallies₁, htallies₂⟩

end BytecodeKernel.Kernel
