import BytecodeKernel.Kernel.Dispatch
import BytecodeKernel.Machine.Interpreter
/-!
A quantum: one process runs for a number of instructions, with the kernel as its host. Whatever ends
the process is carried out here: at the end of its program it is hung, a halt instruction halts it,
and a fault halts it with all below it. During the run the context of the process is with the
machine; its record gets it back at the end, unless it no longer has one.
-/

namespace BytecodeKernel

/-- What came of letting a process run. -/
inductive Quantum where
  /-- There was nothing to run. -/
  | idle
  | yielded
  | finished
  | halted (recursive : Bool)
  | faulted (fault : Fault)
deriving DecidableEq

namespace Kernel

/-- A request of a program. Refusals reach the program as faults. -/
def serving {α : Type} (x : KernelM α) : HostM System α :=
  EStateM.adaptExcept KernelError.toFault x

/-- Creates a child with a priority and a name. -/
def spawn (parent priority : Nat) (name : List UInt8) : KernelM Nat := do
  let id ← generate (some parent)
  TenantM.modifySelf (·.modifyProcess id ({ · with priority, name }))
  return id

/-- Prints, or reports that the console panicked. -/
def print (origin : Nat) (text : String) : HostM System Unit := fun (s, a) =>
  let k := ({ s with console := s.console.print origin text }, a)
  if s.console.panicsAt origin text then .error (.host "interpreter panicked") k else .ok () k

/-- The kernel as the host of its processes. A process that binds its program to another one has it
itself meanwhile. -/
def host : Host System where
  spawn parent priority name := serving (spawn parent priority name)
  bind target image := serving do
    requireRegistered target
    bindImage target image true
  dispatch target := serving do
    let _ ← dispatch target
  print := print

/-- The machine that goes on where a process stopped. -/
def machineOf (context : Context) (image : Image) (k : Kernel) : Machine System :=
  { heap := context.heap
    stack := context.stack
    cursor := context.cursor.getD image.entry
    arena := k.2
    host := k.1 }

/-- The kernel after a machine stopped that ran a process. -/
def suspend (id : Nat) (m : Machine System) : Kernel :=
  (m.host.modifyProcess id fun p =>
    { p with context := p.context.map fun _ =>
        { heap := m.heap, stack := m.stack, cursor := some m.cursor } }, m.arena)

/-- What is done to a process after it ran. A process that ends is hung first, and it does no harm
if it is no longer registered. -/
def settle (id : Nat) : Quantum → Kernel → Kernel
  | .idle, k | .yielded, k => k
  | .finished, (s, a) => (s.modifyProcess id (·.hang), a)
  | .halted false, (s, a) => attempt (halt id) (s.modifyProcess id (·.hang), a)
  | .halted true, (s, a) | .faulted _, (s, a) =>
    attempt (haltSubtree id) (s.modifyProcess id (·.hang), a)

/-- How a run counts for its process. -/
def quantumOf : Outcome → Quantum
  | .yielded => .yielded
  | .finished => .finished
  | .halted recursive => .halted recursive

/-- Lets a process run that has a program and a context. -/
def runQuantum (id budget : Nat) (image : Image) (context : Context) (k : Kernel) :
    Quantum × Kernel :=
  let runner : Runner System := { origin := id, image, host }
  match runner.run budget (machineOf context image k) with
  | .ok outcome m => (quantumOf outcome, settle id (quantumOf outcome) (suspend id m))
  | .error fault m => (.faulted fault, settle id (.faulted fault) (suspend id m))

/-- Lets a process run for at most `budget` instructions. -/
def execute (id budget : Nat) : StateM Kernel Quantum := fun (s, a) =>
  match s.process? id with
  | none => (.idle, (s, a))
  | some p =>
    match p.active, p.image with
    | true, some image =>
      let s := s.modifyProcess id (·.tick)
      match p.context with
      | none => (.idle, (s, a))
      | some context => runQuantum id budget image context (s, a)
    | _, _ => (.idle, (s, a))

/-- A process that is idle does not run, and nothing changes. -/
theorem execute_of_isIdle {k : Kernel} {id : Nat} (budget : Nat) (h : k.1.isIdle id) :
    execute id budget k = (.idle, k) := by
  obtain ⟨s, a⟩ := k
  simp only [execute]
  cases hp : s.process? id with
  | none => rfl
  | some p =>
    have hidle : p.isIdle := by simpa [System.isIdle, hp] using h
    cases hactive : p.active <;> cases himage : p.image <;>
      simp_all [Process.isIdle, Process.isBound]

end Kernel

end BytecodeKernel
