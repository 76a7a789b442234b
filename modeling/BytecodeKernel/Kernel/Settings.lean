import BytecodeKernel.Kernel.Console
/-!
Settings of a kernel, fixed when it is made. The setters keep three bounds: the arena may always
grow at least to the size it begins with, there is always a worker, and no kernel creates more
processes than `processLimit`.
-/

namespace BytecodeKernel

/-- The weight of a process to which no other is given. -/
def defaultPriority : Nat := 10

/-- The most processes a kernel may be set to create. -/
def processLimit : Nat := 65536

/-- What stands where the cells of a kernel are to be kept. -/
inductive StorageSite where
  /-- A directory with nothing in it. -/
  | emptyDirectory
  | plainFile
deriving DecidableEq

structure Settings where
  /-- The capacity the arena begins with. -/
  arenaBytes : Nat := 64 * 1024 * 1024
  /-- The capacity the arena may grow to when processes need room. -/
  maxArenaBytes : Nat := 256 * 1024 * 1024
  workers : Nat := 8
  /-- The instructions a pass may spend, shared evenly by the workers. -/
  priorityBudget : Nat := 10000
  heapBytes : Nat := 24 * 1024
  stackBytes : Nat := 12 * 1024
  /-- The number of processes that may ever be created. -/
  maxProcesses : Nat := processLimit
  storageSite : Option StorageSite := none
  /-- How long a worker waits that has nothing to run. -/
  idleBackoffMs : Nat := 5
  console : Console := {}

namespace Settings

def withArenaBytes (s : Settings) (bytes : Nat) : Settings :=
  { s with arenaBytes := bytes, maxArenaBytes := max s.maxArenaBytes bytes }

def withMaxArenaBytes (s : Settings) (bytes : Nat) : Settings :=
  { s with maxArenaBytes := max bytes s.arenaBytes }

def withWorkers (s : Settings) (count : Nat) : Settings :=
  { s with workers := max count 1 }

def withMaxProcesses (s : Settings) (count : Nat) : Settings :=
  { s with maxProcesses := min count processLimit }

/-- The number of workers a kernel is made with. -/
def workerCount (s : Settings) : Nat :=
  max s.workers 1

/-- Divisors of a budget are taken below this. -/
def divisorLimit : Nat := 0x100000000

/-- The budget each worker starts with. The divisor has 32 bits only, and there is no share where
nothing of it is left. -/
def workerPriority? (s : Settings) : Option Nat :=
  let divisor := s.workerCount % divisorLimit
  if divisor = 0 then none else some (s.priorityBudget / divisor)

theorem workerPriority?_eq_some {s : Settings} (h : s.workers < divisorLimit) :
    s.workerPriority? = some (s.priorityBudget / s.workerCount) := by
  have hcount : s.workerCount % divisorLimit = s.workerCount :=
    Nat.mod_eq_of_lt (Nat.max_lt.2 ⟨h, by decide⟩)
  have hpos : s.workerCount ≠ 0 := Nat.pos_iff_ne_zero.1 (Nat.le_max_right s.workers 1)
  simp only [workerPriority?, hcount, if_neg hpos]

end Settings

end BytecodeKernel
