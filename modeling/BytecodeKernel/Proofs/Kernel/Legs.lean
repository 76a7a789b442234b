import BytecodeKernel.Proofs.Kernel.Pauses
import BytecodeKernel.Proofs.Kernel.Schedules
/-!
The way of a process through its program. The quanta in which it runs are the legs of it. The first
begins at the entry of the program and each of the others where the last one stopped, whatever
happens to the process in between, and all of them are in the one program that it has.
-/

namespace BytecodeKernel.Kernel

/-- A quantum in which a process runs: the program it has, where it goes on and where it stops. -/
structure Leg where
  image : Image
  begun : Nat
  left : Nat
deriving DecidableEq

/-- The quantum of a process, if it has anything to run. -/
def leg? (id budget : Nat) (k : Kernel) : Option Leg :=
  match k.1.process? id with
  | none => none
  | some p =>
    match p.active, p.image, p.context with
    | true, some image, some context =>
      some { image
             begun := (machineOf context image (ticked id k)).cursor
             left := (reached (runEnd id budget image context (ticked id k))).cursor }
    | _, _, _ => none

namespace Op

/-- The operations that are no passes. -/
def IsPlain : Op → Prop
  | .workerPass _ | .runPass | .runUntilIdle _ => False
  | _ => True

/-- The quantum of a process in an operation that is no pass. -/
def leg? (id : Nat) : Op → Kernel → Option Leg
  | .execute j budget, k => if j = id then Kernel.leg? id budget k else none
  | _, _ => none

end Op

/-- The quanta of a process in operations that are no passes, one after the other. -/
def legsOf (id : Nat) : List Op → Kernel → List Leg
  | [], _ => []
  | op :: rest, k => (op.leg? id k).toList ++ legsOf id rest (perform k op)

/-- A way through a program, from a process that has this program or none yet and has come to this
place or has not begun. At the end it has come to another place. -/
inductive Resumes : Option Image → Option Nat → List Leg → Option Nat → Prop
  | done {image? : Option Image} {cursor : Option Nat} : Resumes image? cursor [] cursor
  | leg {image? : Option Image} {cursor last : Option Nat} {leg : Leg} {legs : List Leg}
    (himage : ∀ image, image? = some image → leg.image = image)
    (hbegun : leg.begun = cursor.getD leg.image.entry)
    (h : Resumes (some leg.image) (some leg.left) legs last) :
    Resumes image? cursor (leg :: legs) last

variable {id budget : Nat} {k k' : Kernel} {stints : List Stint} {leg : Leg} {op : Op}
  {steps : List Op}

/-! ### One quantum -/

theorem Ready.leg? {p : Process} {image : Image} {context : Context}
    (h : Ready k id p image context) (budget : Nat) :
    Kernel.leg? id budget k = some
      { image
        begun := context.cursor.getD image.entry
        left := (reached (runEnd id budget image context (ticked id k))).cursor } := by
  simp only [Kernel.leg?, h.record, h.active, h.image, h.context]
  rfl

theorem ready_of_leg? (h : leg? id budget k = some leg) :
    ∃ p image context, Ready k id p image context := by
  rw [leg?] at h
  split at h
  · contradiction
  · rename_i p hp
    split at h
    · rename_i image context hactive himage hcontext
      exact ⟨p, image, context, hp, hactive, himage, hcontext⟩
    · contradiction

/-- There is a leg whenever the quantum counts. -/
theorem leg?_eq_none_iff : leg? id budget k = none ↔ (execute id budget k).1 = .idle := by
  constructor
  · intro hnone
    rcases ready_or_ticked id budget k with ⟨p, image, context, hready⟩ | heq | heq
    · exact absurd (hnone.symm.trans (hready.leg? budget)) nofun
    · rw [heq]
    · rw [heq]
  · intro hidle
    cases hleg : leg? id budget k with
    | none => rfl
    | some leg =>
      obtain ⟨p, image, context, hready⟩ := ready_of_leg? hleg
      rw [hready.execute, runQuantum_eq] at hidle
      exact absurd hidle (quantumOfEnd_ne_idle _)

/-- The process gets its context back, to go on where the machine stopped. -/
theorem lives_suspend (id : Nat) (m : Machine System) :
    m.host.Lives id (suspend id m).1 ∧
      ∀ c, m.host.context? id = some c → (suspend id m).1.cursor? id = some m.cursor := by
  have hrecord : (suspend id m).1.process? id = (m.host.process? id).map (handBack m) :=
    (System.process?_modifyProcess m.host id id (handBack m)).trans (if_pos rfl)
  cases hp : m.host.process? id with
  | none =>
    rw [hp] at hrecord
    refine ⟨(System.pauses_of_eq (hrecord.trans hp.symm)).toLives, fun c hc => ?_⟩
    rw [System.context?, hp] at hc
    contradiction
  | some p =>
    rw [hp, Option.map_some] at hrecord
    refine ⟨⟨fun h => ?_, fun _ image himage => ?_⟩, fun c hc => ?_⟩
    · rw [System.isHalted_of_record hp] at h
      rwa [System.isHalted_of_record hrecord]
    · rw [System.image?_of_record hp] at himage
      rw [System.image?_of_record hrecord]
      exact himage
    · rw [System.context?_of_record hp] at hc
      rw [System.cursor?, System.context?_of_record hrecord, handBack, hc]
      rfl

/-- What becomes of the process that runs. -/
theorem Ready.lives {p : Process} {image : Image} {context : Context}
    (h : Ready k id p image context) (hs : k.1.Orderly ∅) (budget : Nat) :
    k.1.Lives id (Kernel.execute id budget k).2.1 ∧
      ((Kernel.execute id budget k).2.1.isHalted id = false →
        (Kernel.execute id budget k).2.1.cursor? id =
          some (reached (runEnd id budget image context (ticked id k))).cursor) := by
  have hrun : k.1.Pauses id (reached (runEnd id budget image context (ticked id k))).host :=
    (pauses_ticked id k).trans (pauses_runEnd (orderly_ticked hs id) id budget image context)
  rw [h.execute, runQuantum_eq]
  generalize runEnd id budget image context (ticked id k) = ended at hrun ⊢
  obtain ⟨hback, hcursor⟩ := lives_suspend id (reached ended)
  have hsettled : (suspend id (reached ended)).1.Pauses id
      (settle id (quantumOfEnd ended) (suspend id (reached ended))).1 :=
    pauses_settle id (quantumOfEnd ended) (suspend id (reached ended))
  refine ⟨(hrun.toLives.trans hback).trans hsettled.toLives, fun halive => ?_⟩
  have hlast := hsettled.alive halive
  rw [hsettled.cursor halive]
  -- It was not halted while it ran, so it still had the context that the machine was made of.
  refine hcursor context (hrun.context (hback.alive hlast) context ?_)
  rw [System.context?_of_record h.record, h.context]

/-! ### One operation -/

/-- An operation in which the process does not run. -/
theorem pauses_perform (hs : k.1.Orderly ∅) (hplain : op.IsPlain) (hleg : op.leg? id k = none) :
    k.1.Pauses id (perform k op).1 := by
  have hends := ends_pauses id k.1
  cases op with
  | generate parent => exact pauses_generate hs parent
  | spawnChild parent => exact pauses_generate hs (some parent)
  | bindProgram j bytes => exact pauses_bindProgram j bytes k
  | bindImage j image kept => exact pauses_bindImage j image kept k
  | dispatch j => exact pauses_dispatch j k
  | execute j budget =>
    by_cases hj : j = id
    · subst hj
      rw [Op.leg?, if_pos rfl] at hleg
      rcases ready_or_ticked j budget k with ⟨p, image, context, hready⟩ | heq | heq
      · exact absurd (hleg.symm.trans (hready.leg? budget)) nofun
      · rw [perform, heq]
        exact .refl k.1
      · rw [perform, heq]
        exact pauses_ticked j k
    · exact pauses_execute hs hj budget
  | halt j => exact pauses_halt j k
  | haltSubtree j => exact pauses_haltSubtree j k
  | close j => exact hends.close (.refl k.1) j
  | closeSubtree j => exact hends.closeSubtree (.refl k.1) j
  | hang j => exact System.pauses_relabel Process.relabels_hang j
  | wake j => exact System.pauses_relabel Process.relabels_wake j
  | tick j => exact System.pauses_relabel Process.relabels_tick j
  | setPriority j priority =>
    exact System.pauses_relabel (fun p => p.relabels_rename priority p.name) j
  | setName j name => exact System.pauses_relabel (fun p => p.relabels_rename p.priority name) j
  | sleepWorker index | wakeWorker index | setWorkerPriority index priority =>
    exact System.pauses_of_eq rfl
  | workerPass index | runPass | runUntilIdle limit => exact hplain.elim
  | shutdown => exact hends.shutdown (.refl k.1)

/-- An operation in which it runs is a quantum of it. -/
theorem ready_of_op_leg? (h : op.leg? id k = some leg) :
    ∃ budget, op = .execute id budget ∧ Kernel.leg? id budget k = some leg := by
  cases op with
  | execute j budget =>
    rw [Op.leg?] at h
    split at h
    · rename_i hj
      exact ⟨budget, by rw [hj], h⟩
    · contradiction
  | _ => contradiction

/-- The operation begins the leg where the process stands and leaves it where the leg ends. -/
theorem lives_of_leg? (hs : k.1.Orderly ∅) (h : op.leg? id k = some leg) :
    k.1.Lives id (perform k op).1 ∧ k.1.image? id = some leg.image ∧
      leg.begun = (k.1.cursor? id).getD leg.image.entry ∧
      ((perform k op).1.isHalted id = false → (perform k op).1.cursor? id = some leg.left) := by
  obtain ⟨budget, rfl, hleg⟩ := ready_of_op_leg? h
  obtain ⟨p, image, context, hready⟩ := ready_of_leg? hleg
  rw [hready.leg? budget] at hleg
  obtain rfl := Option.some.inj hleg
  obtain ⟨hlives, hcursor⟩ := hready.lives hs budget
  refine ⟨hlives, (System.image?_of_record hready.record).trans hready.image, ?_, hcursor⟩
  rw [System.cursor?, System.context?_of_record hready.record, hready.context]
  rfl

theorem lives_perform (hs : k.1.Orderly ∅) (hplain : op.IsPlain) :
    k.1.Lives id (perform k op).1 := by
  cases hleg : op.leg? id k with
  | none => exact (pauses_perform hs hplain hleg).toLives
  | some leg => exact (lives_of_leg? hs hleg).1

/-! ### Passes -/

theorem stintsOf_append (ops more : List Op) (k : Kernel) :
    stintsOf (ops ++ more) k = stintsOf ops k ++ stintsOf more (performAll k ops) := by
  induction ops generalizing k with
  | nil => rfl
  | cons op rest ih =>
    rw [List.cons_append, stintsOf, ih, stintsOf, List.append_assoc]
    rfl

/-- What passes come to can be asked for one process after the other. -/
theorem Turns.exists_steps (h : Turns k stints k') :
    ∃ steps : List Op, (∀ op ∈ steps, op.IsPlain) ∧ performAll k steps = k' ∧
      stintsOf steps k = stints := by
  induction h with
  | refl k => exact ⟨[], nofun, rfl, rfl⟩
  | tick id _ ih =>
    obtain ⟨steps, hplain, hend, hstints⟩ := ih
    exact ⟨.tick id :: steps, List.forall_mem_cons.2 ⟨trivial, hplain⟩, hend, hstints⟩
  | execute id budget _ ih =>
    obtain ⟨steps, hplain, hend, hstints⟩ := ih
    refine ⟨.execute id budget :: steps, List.forall_mem_cons.2 ⟨trivial, hplain⟩, hend, ?_⟩
    exact congrArg (stint id budget _ :: ·) hstints

theorem exists_steps (ops : List Op) (k : Kernel) :
    ∃ steps : List Op, (∀ op ∈ steps, op.IsPlain) ∧ performAll k steps = performAll k ops ∧
      stintsOf steps k = stintsOf ops k := by
  induction ops generalizing k with
  | nil => exact ⟨[], nofun, rfl, rfl⟩
  | cons op rest ih =>
    obtain ⟨first, hfirst, hstate, hstints⟩ : ∃ steps : List Op, (∀ op ∈ steps, op.IsPlain) ∧
        performAll k steps = perform k op ∧ stintsOf steps k = op.stints k := by
      by_cases hplain : op.IsPlain
      · exact ⟨[op], List.forall_mem_singleton.2 hplain, rfl, List.append_nil _⟩
      · cases op with
        | workerPass index => exact (turns_workerPass index k).exists_steps
        | runPass => exact (turns_runPass k).exists_steps
        | runUntilIdle limit => exact (turns_runMore 0 limit k).exists_steps
        | _ => exact absurd trivial hplain
    obtain ⟨later, hlater, hend, hmore⟩ := ih (perform k op)
    refine ⟨first ++ later, fun next hnext => ?_, ?_, ?_⟩
    · exact (List.mem_append.1 hnext).elim (hfirst next) (hlater next)
    · rw [performAll_append, hstate, hend]
      rfl
    · rw [stintsOf_append, hstate, hmore, hstints]
      rfl

/-! ### Histories -/

theorem orderly_perform (hs : k.1.Orderly ∅) (op : Op) : (perform k op).1.Orderly ∅ :=
  (Tracks.perform ⟨hs, .refl k.1⟩ op).orderly

theorem lives_steps (hs : k.1.Orderly ∅) (hplain : ∀ op ∈ steps, op.IsPlain) :
    k.1.Lives id (performAll k steps).1 := by
  induction steps generalizing k with
  | nil => exact (System.Pauses.refl k.1).toLives
  | cons op rest ih =>
    obtain ⟨hop, hrest⟩ := List.forall_mem_cons.1 hplain
    exact (lives_perform hs hop).trans (ih (orderly_perform hs op) hrest)

/-- Whatever is done, nobody revives a process or gives it another program. -/
theorem lives_performAll (hs : k.1.Orderly ∅) (ops : List Op) :
    k.1.Lives id (performAll k ops).1 := by
  obtain ⟨steps, hplain, hend, -⟩ := exists_steps ops k
  rw [← hend]
  exact lives_steps hs hplain

/-- Who was halted does not run. -/
theorem op_leg?_of_halted (hs : k.1.Orderly ∅) (h : k.1.isHalted id) (op : Op) :
    op.leg? id k = none := by
  refine Option.eq_none_iff_forall_ne_some.2 fun leg hleg => ?_
  obtain ⟨budget, -, hquantum⟩ := ready_of_op_leg? hleg
  obtain ⟨p, image, context, hready⟩ := ready_of_leg? hquantum
  rw [System.isHalted_of_record hready.record] at h
  have hasleep := (hs.recorded.bare id p hready.record h).active
  exact absurd (hready.active.symm.trans hasleep) nofun

theorem legsOf_of_halted (hs : k.1.Orderly ∅) (hplain : ∀ op ∈ steps, op.IsPlain)
    (h : k.1.isHalted id) : legsOf id steps k = [] := by
  induction steps generalizing k with
  | nil => rfl
  | cons op rest ih =>
    obtain ⟨hop, hrest⟩ := List.forall_mem_cons.1 hplain
    rw [legsOf, op_leg?_of_halted hs h op,
      ih (orderly_perform hs op) hrest ((lives_perform hs hop).halted h)]
    rfl

/-- To begin with no program in place of the first one makes no difference. -/
theorem Resumes.forget {image? before? : Option Image} {cursor last : Option Nat} {legs : List Leg}
    (h : Resumes image? cursor legs last)
    (hbefore : ∀ image, before? = some image → image? = some image) :
    Resumes before? cursor legs last := by
  cases h with
  | done => exact .done
  | leg himage hbegun h => exact .leg (fun i hi => himage i (hbefore i hi)) hbegun h

/-- The quanta of a process make one way through its program, and the process stands where that has
come to. -/
theorem resumes_legsOf (hs : k.1.Orderly ∅) (hplain : ∀ op ∈ steps, op.IsPlain) :
    ∃ last, Resumes (k.1.image? id) (k.1.cursor? id) (legsOf id steps k) last ∧
      ((performAll k steps).1.isHalted id = false →
        (performAll k steps).1.cursor? id = last) := by
  induction steps generalizing k with
  | nil => exact ⟨_, .done, fun _ => rfl⟩
  | cons op rest ih =>
    obtain ⟨hop, hrest⟩ := List.forall_mem_cons.1 hplain
    have hnext := orderly_perform hs op
    have hlives : k.1.Lives id (perform k op).1 := lives_perform hs hop
    cases hhalted : (perform k op).1.isHalted id with
    | true =>
      -- It does not run any more.
      have hend : (performAll (perform k op) rest).1.isHalted id :=
        (lives_steps hnext hrest).halted hhalted
      rw [legsOf, legsOf_of_halted hnext hrest hhalted, List.append_nil]
      cases hleg : op.leg? id k with
      | none => exact ⟨_, .done, fun halive => absurd (hend.symm.trans halive) nofun⟩
      | some leg =>
        obtain ⟨-, himage, hbegun, -⟩ := lives_of_leg? hs hleg
        refine ⟨_, .leg (fun i hi => Option.some.inj (himage.symm.trans hi)) hbegun .done,
          fun halive => absurd (hend.symm.trans halive) nofun⟩
    | false =>
      obtain ⟨last, hway, hlast⟩ := ih hnext hrest
      refine ⟨last, ?_, hlast⟩
      rw [legsOf]
      cases hleg : op.leg? id k with
      | none =>
        rw [(pauses_perform hs hop hleg).cursor hhalted] at hway
        exact hway.forget (hlives.image hhalted)
      | some leg =>
        obtain ⟨-, himage, hbegun, hcursor⟩ := lives_of_leg? hs hleg
        rw [hlives.image hhalted _ himage, hcursor hhalted] at hway
        exact .leg (fun i hi => Option.some.inj (himage.symm.trans hi)) hbegun hway

end BytecodeKernel.Kernel
