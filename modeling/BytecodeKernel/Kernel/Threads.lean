import BytecodeKernel.Kernel.Pass
/-!
Running a kernel to its end: the workers are started, make passes until all of them stay idle, and
are shut down. Which worker is ahead of which makes no difference to what one process prints, so the
texts are given by process.
-/

namespace BytecodeKernel.Kernel

/-- More passes than anyone waits for. -/
def passLimit : Nat := 0x100000000

/-- Starts the workers, waits until nothing runs any more, and shuts the kernel down. Gives what the
console held, by process. -/
def runThreads : StateM Kernel (List (Nat × String)) := do
  modify fun (s, a) => ({ s with keepAlive := true }, a)
  let _ ← runUntilIdle passLimit
  modify shutdown
  let printed := (← get).1.console.printed
  modify fun (s, a) => ({ s with console := s.console.cleared }, a)
  return Console.byOrigin printed

end BytecodeKernel.Kernel
