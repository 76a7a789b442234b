import BytecodeKernel.Kernel.Console
import BytecodeKernel.Kernel.Error
import BytecodeKernel.Kernel.Process
import BytecodeKernel.Kernel.Worker
import BytecodeKernel.Memory.Tenant
import Std.Data.TreeSet
/-!
The system: the registry, the workers, the console and the storage, and beside them the records of
all processes that ever were. Who holds a process can act on its record also when the registry no
longer has it. Together with the arena that the processes live in, the system is the state of a
kernel.
-/

namespace BytecodeKernel

structure System where
  settings : Settings
  /-- The processes that the kernel knows. -/
  registry : Std.TreeSet Nat := {}
  processes : Std.TreeMap Nat Process := {}
  /-- The identity of the next process, whether its creation succeeds or not. -/
  nextId : Nat := 0
  workers : List Worker
  /-- Whether the kernel has not been shut down. -/
  keepAlive : Bool := true
  console : Console
  storage : Option CellStore := none

/-- The state of a kernel. -/
abbrev Kernel := System × Arena

/-- An action of the kernel that may be refused. -/
abbrev KernelM := TenantM KernelError System

namespace System

/-- A system without processes, of settings whose workers have a share. -/
def create (settings : Settings) : Except KernelError System :=
  let system : System :=
    { settings
      workers := List.replicate settings.workerCount
        { priority := settings.workerPriority?.getD 0 }
      console := settings.console }
  match settings.storageSite with
  | none => .ok system
  | some .emptyDirectory => .ok { system with storage := some (.ofDirectory .hex {}) }
  | some .plainFile => .error (.storage (.file .alreadyExists))

/-- The record of a process, registered or not. -/
def process? (s : System) (id : Nat) : Option Process :=
  s.processes[id]?

/-- The processes that a process created. -/
def childrenOf (s : System) (id : Nat) : List Nat :=
  ((s.process? id).map (·.children)).getD []

def IsRegistered (s : System) (id : Nat) : Prop :=
  id ∈ s.registry

instance (s : System) (id : Nat) : Decidable (s.IsRegistered id) :=
  inferInstanceAs (Decidable (id ∈ s.registry))

def modifyProcess (s : System) (id : Nat) (f : Process → Process) : System :=
  { s with processes := s.processes.modify id f }

/-- Links a new process to its parent and registers it. -/
def enter (s : System) (parent : Option Nat) (id : Nat) (context : Context) : System :=
  let s := match parent with
    | some parent => s.modifyProcess parent (·.addChild id)
    | none => s
  { s with
    registry := s.registry.insert id
    processes := s.processes.insert id { id, context := some context } }

/-- Takes a process off the registry and from the workers. -/
def unregister (s : System) (id : Nat) : System :=
  { s with registry := s.registry.erase id, workers := s.workers.map (·.remove id) }

def modifyWorker (s : System) (index : Nat) (f : Worker → Worker) : System :=
  { s with workers := s.workers.modify index f }

/-- Whether a process has nothing to run. -/
def isIdle (s : System) (id : Nat) : Bool :=
  (s.process? id).all (·.isIdle)

/-- The number of processes of a worker that have something to run. -/
def load (s : System) (w : Worker) : Nat :=
  w.owned.countP (! s.isIdle ·)

/-- The awake worker with the least load, the first one of equals. -/
def leastLoaded? (s : System) : Option Nat :=
  let awake := s.workers.zipIdx.filter fun (w, _) => w.awake
  (awake.minOn? fun (w, _) => s.load w).map Prod.snd

/-- The processes in the order in which they are served. Identities without a record have no rank.
-/
def fairnessOrder (s : System) (ids : List Nat) : List Nat :=
  (Rank.fairnessOrder (ids.filterMap fun id => (s.process? id).map (·.rank))).map (·.id)

/-- New systems differ in their settings and their storage. -/
theorem create_eq_ok {settings : Settings} {s : System} (h : create settings = .ok s) :
    ∃ storage, s =
      { settings, storage
        workers := List.replicate settings.workerCount
          { priority := settings.workerPriority?.getD 0 }
        console := settings.console } := by
  simp only [create] at h
  split at h
  · exact ⟨none, (Except.ok.inj h).symm⟩
  · exact ⟨some (.ofDirectory .hex {}), (Except.ok.inj h).symm⟩
  · contradiction

/-- Only the storage can be in the way of a new system. -/
theorem exists_create {settings : Settings} (h : settings.storageSite ≠ some .plainFile) :
    ∃ s, create settings = .ok s := by
  simp only [create]
  split
  · exact ⟨_, rfl⟩
  · exact ⟨_, rfl⟩
  · contradiction

@[simp] theorem process?_modifyProcess (s : System) (id other : Nat) (f : Process → Process) :
    (s.modifyProcess id f).process? other
      = if id = other then (s.process? id).map f else s.process? other := by
  simp [modifyProcess, process?, Std.TreeMap.getElem?_modify]

@[simp] theorem workers_modifyProcess (s : System) (id : Nat) (f : Process → Process) :
    (s.modifyProcess id f).workers = s.workers := rfl

@[simp] theorem process?_modifyWorker (s : System) (index : Nat) (f : Worker → Worker) (id : Nat) :
    (s.modifyWorker index f).process? id = s.process? id := rfl

end System

/-- A kernel without processes, whose arena is empty. -/
def Kernel.create (settings : Settings) : Except KernelError Kernel := do
  let system ← System.create settings
  return (system, .withLimit settings.arenaBytes settings.maxArenaBytes)

end BytecodeKernel
