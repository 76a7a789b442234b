import BytecodeKernel.Proofs.Kernel.Credits
import BytecodeKernel.Proofs.Kernel.Histories
import BytecodeKernel.Proofs.Machine.Budgets
/-!
Schedules. Whatever passes a client asks for, of one worker or of all, and whatever processes it
lets run itself, to the processes this is one quantum after the other. In between they grow older,
their priorities are changed and they are given to other workers, of which they see nothing.
-/

namespace BytecodeKernel.Kernel

/-- One quantum of a process. -/
structure Stint where
  process : Nat
  /-- The instructions that were carried out. -/
  spent : Nat
  requests : List Exchange
  ended : Quantum
deriving DecidableEq

/-- The instructions of a quantum, none if the process is idle. -/
def quantumSpent (id budget : Nat) (k : Kernel) : Nat :=
  match k.1.process? id with
  | none => 0
  | some p =>
    match p.active, p.image, p.context with
    | true, some image, some context =>
      Runner.spent ⟨id, image, host⟩ budget (machineOf context image (ticked id k))
    | _, _, _ => 0

def stint (id budget : Nat) (k : Kernel) : Stint where
  process := id
  spent := quantumSpent id budget k
  requests := quantumLog id budget k
  ended := (execute id budget k).1

theorem Ready.quantumSpent {k : Kernel} {id : Nat} {p : Process} {image : Image} {context : Context}
    (h : Ready k id p image context) (budget : Nat) :
    Kernel.quantumSpent id budget k =
      Runner.spent ⟨id, image, host⟩ budget (machineOf context image (ticked id k)) := by
  simp only [Kernel.quantumSpent, h.record, h.active, h.image, h.context]

/-- A process that is idle does nothing. -/
theorem stint_of_isIdle {k : Kernel} {id : Nat} (h : k.1.isIdle id) (budget : Nat) :
    stint id budget k = ⟨id, 0, [], .idle⟩ := by
  rw [stint, execute_of_isIdle budget h, quantumSpent, quantumLog]
  cases hp : k.1.process? id with
  | none => rfl
  | some p =>
    have hidle : p.isIdle := by simpa [System.isIdle, hp] using h
    cases hactive : p.active <;> cases himage : p.image <;>
      simp_all [Process.isIdle, Process.isBound]

/-! ### The quanta of an operation -/

/-- Those that processes get which are served in this order. -/
def serveStints (budget : Nat) : (remaining : Nat) → List Nat → Kernel → List Stint
  | _, [], _ => []
  | remaining, id :: rest, k =>
    if remaining = 0 then []
    else
      let grant := min (share budget (((k.1.process? id).map (·.priority)).getD 0)) remaining
      if grant = 0 then serveStints budget remaining rest (ticked id k)
      else stint id grant k :: serveStints budget (remaining - grant) rest (execute id grant k).2

/-- The kernel in which some processes have grown older by a round. -/
def tickedEach (ids : List Nat) (k : Kernel) : Kernel :=
  (ids.foldl (fun s id => s.modifyProcess id (·.tick)) k.1, k.2)

def workerStints (index : Nat) (k : Kernel) : List Stint :=
  match k.1.workers[index]? with
  | none => []
  | some w =>
    let (idle, runnable) := w.owned.partition k.1.isIdle
    let k := tickedEach idle k
    serveStints w.priority w.priority (k.1.fairnessOrder runnable) k

def passesStints : List Nat → Kernel → List Stint
  | [], _ => []
  | index :: rest, k =>
    if (k.1.workers[index]?.map (·.awake)).getD false then
      workerStints index k ++ passesStints rest (workerPass index k).2
    else passesStints rest k

def passStints (k : Kernel) : List Stint :=
  passesStints (List.range k.1.workers.length) k

def moreStints : (limit : Nat) → Kernel → List Stint
  | 0, _ => []
  | limit + 1, k =>
    passStints k ++ if (runPass k).1 = 0 then [] else moreStints limit (runPass k).2

namespace Op

/-- To let processes run, or to change when and for how long they do. -/
def Schedules : Op → Prop
  | .execute .. | .workerPass _ | .runPass | .runUntilIdle _ => True
  | .tick _ | .setPriority .. | .dispatch _ => True
  | .sleepWorker _ | .wakeWorker _ | .setWorkerPriority .. => True
  | .generate _ | .spawnChild _ | .bindProgram .. | .bindImage .. | .halt _ | .haltSubtree _ =>
    False
  | .close _ | .closeSubtree _ | .hang _ | .wake _ | .setName .. | .shutdown => False

/-- The quanta of an operation, in their order. -/
def stints : Op → Kernel → List Stint
  | .execute id budget, k => [stint id budget k]
  | .workerPass index, k => workerStints index k
  | .runPass, k => passStints k
  | .runUntilIdle limit, k => moreStints limit k
  | _, _ => []

end Op

/-- The quanta of operations one after the other. -/
def stintsOf : List Op → Kernel → List Stint
  | [], _ => []
  | op :: rest, k => op.stints k ++ stintsOf rest (perform k op)

/-! ### One quantum after the other -/

/-- From one kernel to a later one there are these quanta, and in between processes only grow older.
-/
inductive Turns : Kernel → List Stint → Kernel → Prop
  | refl (k : Kernel) : Turns k [] k
  | tick {k k' : Kernel} {stints : List Stint} (id : Nat) (h : Turns (ticked id k) stints k') :
    Turns k stints k'
  | execute {k k' : Kernel} {stints : List Stint} (id budget : Nat)
      (h : Turns (Kernel.execute id budget k).2 stints k') :
      Turns k (stint id budget k :: stints) k'

/-- From one kernel to a later one there are these quanta, and nothing else that a process could
see. -/
inductive Unfolds : Kernel → List Stint → Kernel → Prop
  | refl (k : Kernel) : Unfolds k [] k
  | relabel {k k' : Kernel} {stints : List Stint} (id : Nat) (f : Process → Process)
      (hf : ∀ p : Process, p.Relabels (f p)) (hactive : ∀ p, (f p).active = p.active)
      (h : Unfolds (k.1.modifyProcess id f, k.2) stints k') : Unfolds k stints k'
  | staff {k k' : Kernel} {stints : List Stint} (workers : List Worker)
      (horderly : k.1.Orderly ∅ → ({ k.1 with workers } : System).Orderly ∅)
      (h : Unfolds ({ k.1 with workers }, k.2) stints k') : Unfolds k stints k'
  | execute {k k' : Kernel} {stints : List Stint} (id budget : Nat)
      (h : Unfolds (Kernel.execute id budget k).2 stints k') :
      Unfolds k (stint id budget k :: stints) k'

variable {k k' k'' : Kernel} {stints more : List Stint}

theorem Unfolds.trans (h : Unfolds k stints k') (h' : Unfolds k' more k'') :
    Unfolds k (stints ++ more) k'' := by
  induction h with
  | refl => exact h'
  | relabel id f hf hactive _ ih => exact .relabel id f hf hactive (ih h')
  | staff workers horderly _ ih => exact .staff workers horderly (ih h')
  | execute id budget _ ih => exact .execute id budget (ih h')

theorem Turns.unfolds (h : Turns k stints k') : Unfolds k stints k' := by
  induction h with
  | refl k => exact .refl k
  | tick id _ ih => exact .relabel id (·.tick) Process.relabels_tick (fun _ => rfl) ih
  | execute id budget _ ih => exact .execute id budget ih

theorem Turns.trans (h : Turns k stints k') (h' : Turns k' more k'') :
    Turns k (stints ++ more) k'' := by
  induction h with
  | refl => exact h'
  | tick id _ ih => exact .tick id (ih h')
  | execute id budget _ ih => exact .execute id budget (ih h')

theorem turns_tickedEach (ids : List Nat) (k : Kernel) : Turns k [] (tickedEach ids k) := by
  induction ids generalizing k with
  | nil => exact .refl k
  | cons id rest ih => exact .tick id (ih (ticked id k))

/-- What is done for the first in the order, and counted. -/
theorem serve_cons (budget remaining id : Nat) (rest : List Nat) (k : Kernel) :
    serve budget remaining (id :: rest) k =
      if remaining = 0 then (0, k)
      else
        let grant := min (share budget (((k.1.process? id).map (·.priority)).getD 0)) remaining
        if grant = 0 then serve budget remaining rest (ticked id k)
        else
          let later := serve budget (remaining - grant) rest (execute id grant k).2
          (if (execute id grant k).1 = .idle then later.1 else later.1 + 1, later.2) := by
  rw [serve]
  by_cases hremaining : remaining = 0
  · rw [if_pos hremaining, if_pos hremaining]
    rfl
  · rw [if_neg hremaining, if_neg hremaining]
    simp only [bind, StateT.bind, get, getThe, MonadStateOf.get, StateT.get, pure]
    split <;> rfl

theorem turns_serve (budget remaining : Nat) (ids : List Nat) (k : Kernel) :
    Turns k (serveStints budget remaining ids k) (serve budget remaining ids k).2 := by
  induction ids generalizing remaining k with
  | nil => exact .refl k
  | cons id rest ih =>
    rw [serve_cons, serveStints]
    by_cases hremaining : remaining = 0
    · rw [if_pos hremaining, if_pos hremaining]
      exact .refl k
    · rw [if_neg hremaining, if_neg hremaining]
      dsimp only
      split
      · exact .tick id (ih remaining _)
      · exact .execute id _ (ih _ _)

/-- The processes of a worker that have nothing to run. -/
def idleOf (w : Worker) (k : Kernel) : List Nat :=
  (w.owned.partition k.1.isIdle).1

/-- The others, in the order in which they are served. -/
def orderOf (w : Worker) (k : Kernel) : List Nat :=
  (tickedEach (idleOf w k) k).1.fairnessOrder (w.owned.partition k.1.isIdle).2

/-- What a pass of a worker comes to: those who are idle grow older, and the others are served. -/
theorem workerPass_eq {index : Nat} {w : Worker} (hw : k.1.workers[index]? = some w) :
    (workerPass index k).2 =
      (serve w.priority w.priority (orderOf w k) (tickedEach (idleOf w k) k)).2 := by
  rw [workerPass]
  simp only [bind, StateT.bind, get, getThe, MonadStateOf.get, StateT.get, pure, hw]
  rfl

theorem workerStints_eq {index : Nat} {w : Worker} (hw : k.1.workers[index]? = some w) :
    workerStints index k =
      serveStints w.priority w.priority (orderOf w k) (tickedEach (idleOf w k) k) := by
  rw [workerStints, hw]
  rfl

theorem workerPass_of_none {index : Nat} (hw : k.1.workers[index]? = none) :
    (workerPass index k).2 = k := by
  rw [workerPass]
  simp only [bind, StateT.bind, get, getThe, MonadStateOf.get, StateT.get, pure, hw]
  rfl

theorem turns_workerPass (index : Nat) (k : Kernel) :
    Turns k (workerStints index k) (workerPass index k).2 := by
  cases hw : k.1.workers[index]? with
  | none =>
    rw [workerPass_of_none hw, workerStints, hw]
    exact .refl k
  | some w =>
    rw [workerPass_eq hw, workerStints_eq hw]
    exact (turns_tickedEach (idleOf w k) k).trans (turns_serve _ _ _ _)

/-- What the pass of one worker after the other comes to. -/
theorem passesFrom_cons (index : Nat) (rest : List Nat) (k : Kernel) :
    (passesFrom (index :: rest) k).2 =
      if (k.1.workers[index]?.map (·.awake)).getD false then
        (passesFrom rest (workerPass index k).2).2
      else (passesFrom rest k).2 := by
  rw [passesFrom]
  simp only [bind, StateT.bind, get, getThe, MonadStateOf.get, StateT.get, pure]
  split <;> rfl

theorem turns_passesFrom (indices : List Nat) (k : Kernel) :
    Turns k (passesStints indices k) (passesFrom indices k).2 := by
  induction indices generalizing k with
  | nil => exact .refl k
  | cons index rest ih =>
    rw [passesFrom_cons, passesStints]
    split
    · exact (turns_workerPass index k).trans (ih _)
    · exact ih k

theorem turns_runPass (k : Kernel) : Turns k (passStints k) (runPass k).2 :=
  turns_passesFrom _ k

theorem turns_runMore (made limit : Nat) (k : Kernel) :
    Turns k (moreStints limit k) (runMore made limit k).2 := by
  induction limit generalizing made k with
  | zero => exact .refl k
  | succ limit ih =>
    have hsucc : (runMore made (limit + 1) k).2 =
        if (runPass k).1 = 0 then (runPass k).2
        else (runMore (made + 1) limit (runPass k).2).2 := by
      rw [runMore]
      change ((if (runPass k).1 = 0 then pure made else runMore (made + 1) limit)
        (runPass k).2).2 = _
      split <;> rfl
    rw [hsucc, moreStints]
    refine (turns_runPass k).trans ?_
    split
    · exact .refl _
    · exact ih _ _

theorem unfolds_modifyWorker (f : Worker → Worker) (hf : ∀ w : Worker, (f w).owned.Sublist w.owned)
    (index : Nat) (k : Kernel) : Unfolds k [] (k.1.modifyWorker index f, k.2) :=
  .staff (k.1.workers.modify index f) (fun h => h.modifyWorker hf index) (.refl _)

theorem unfolds_dispatch (id : Nat) (k : Kernel) : Unfolds k [] (reached (dispatch id k)) := by
  rcases dispatch_cases id k with ⟨index, -, heq⟩ | ⟨e, heq⟩
  · rw [heq]
    refine .staff (assignTo index id k.1.workers) (fun h => ?_) (.refl _)
    have hend := (preserves_dispatch id).reached (⟨h, .refl _⟩ : Tracks ∅ k.1 k)
    rw [heq] at hend
    exact hend.orderly
  · rw [heq]
    exact .refl k

/-- An operation that schedules is the quanta it consists of. -/
theorem unfolds_perform {op : Op} (hop : op.Schedules) (k : Kernel) :
    Unfolds k (op.stints k) (perform k op) := by
  cases op with
  | execute id budget => exact .execute id budget (.refl _)
  | workerPass index => exact (turns_workerPass index k).unfolds
  | runPass => exact (turns_runPass k).unfolds
  | runUntilIdle limit => exact (turns_runMore 0 limit k).unfolds
  | tick id => exact (Turns.tick id (.refl _)).unfolds
  | setPriority id priority =>
    exact .relabel id _ (fun p => p.relabels_rename priority p.name) (fun _ => rfl) (.refl _)
  | dispatch id => exact unfolds_dispatch id k
  | sleepWorker index =>
    exact unfolds_modifyWorker ({ · with awake := false }) (fun _ => .refl _) index k
  | wakeWorker index =>
    exact unfolds_modifyWorker ({ · with awake := true }) (fun _ => .refl _) index k
  | setWorkerPriority index priority =>
    exact unfolds_modifyWorker ({ · with priority }) (fun _ => .refl _) index k
  | _ => exact hop.elim

theorem unfolds_performAll {ops : List Op} (hops : ∀ op ∈ ops, op.Schedules) (k : Kernel) :
    Unfolds k (stintsOf ops k) (performAll k ops) := by
  induction ops generalizing k with
  | nil => exact .refl k
  | cons op rest ih =>
    refine (unfolds_perform (hops op List.mem_cons_self) k).trans ?_
    exact ih (fun next hnext => hops next (List.mem_cons_of_mem _ hnext)) _

end BytecodeKernel.Kernel
