import BytecodeKernel.Machine.Fault
import BytecodeKernel.Storage.CellStore
/-!
Why the kernel refuses a request.
-/

namespace BytecodeKernel

inductive KernelError where
  /-- All processes that may ever be created have been. -/
  | processLimit (limit : Nat)
  | unknownProcess (id : Nat)
  | alreadyBound (id : Nat)
  | halted (id : Nat)
  /-- No worker is awake. -/
  | noWorkerAvailable
  | memory (e : MemoryError)
  | storage (e : StorageError)
deriving DecidableEq

namespace KernelError

def message : KernelError → String
  | processLimit limit => s!"process limit of {limit} reached"
  | unknownProcess id => s!"unknown process {id}"
  | alreadyBound id => s!"process {id} already has a program bound"
  | halted id => s!"process {id} has been halted"
  | noWorkerAvailable => "no awake worker to dispatch to"
  | memory e => e.message
  | storage e => e.message

/-- What a program is told whose request was refused. -/
def toFault : KernelError → Fault
  | unknownProcess id | halted id => .unknownProcess id
  | alreadyBound id => .alreadyBound id
  | memory e => .memory e
  | e => .host e.message

end KernelError

end BytecodeKernel
