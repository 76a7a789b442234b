import BytecodeKernel.Kernel.Quantum
/-!
Passes: every awake worker in turn lets its processes run. A worker has a budget of instructions; a
process may use as many hundredths of it as its priority says, while the budget lasts. Processes
that have nothing to run, or too little weight for one instruction, grow older instead.
-/

namespace BytecodeKernel.Kernel

/-- The share of a budget that a priority stands for. -/
def share (budget priority : Nat) : Nat :=
  budget * priority / 100

/-- Lets processes run in the given order while some of the budget remains, and counts those that
did. -/
def serve (budget : Nat) (remaining : Nat) : List Nat → StateM Kernel Nat
  | [] => pure 0
  | id :: rest => do
    if remaining = 0 then return 0
    let priority := (((← get).1.process? id).map (·.priority)).getD 0
    let grant := min (share budget priority) remaining
    if grant = 0 then
      modify fun (s, a) => (s.modifyProcess id (·.tick), a)
      serve budget remaining rest
    else
      let quantum ← execute id grant
      let others ← serve budget (remaining - grant) rest
      return if quantum = .idle then others else others + 1

/-- One pass of one worker, asleep or not. The processes it owns at the beginning take part. -/
def workerPass (index : Nat) : StateM Kernel Nat := do
  let s := (← get).1
  match s.workers[index]? with
  | none => return 0
  | some w =>
    let (idle, runnable) := w.owned.partition s.isIdle
    modify fun (s, a) => (idle.foldl (fun s id => s.modifyProcess id (·.tick)) s, a)
    serve w.priority w.priority ((← get).1.fairnessOrder runnable)

/-- The passes of the workers from `index` on, as far as they are awake when their turn comes. -/
def passesFrom : List Nat → StateM Kernel Nat
  | [] => pure 0
  | index :: rest => do
    let awake := ((← get).1.workers[index]?.map (·.awake)).getD false
    let ran ← if awake then workerPass index else pure 0
    return ran + (← passesFrom rest)

/-- One pass of every awake worker. Gives the number of quanta in which something ran. -/
def runPass : StateM Kernel Nat := do
  passesFrom (List.range (← get).1.workers.length)

/-- Makes at most `limit` more passes after `made` ones, and stops at the first in which nothing
runs. -/
def runMore (made : Nat) : (limit : Nat) → StateM Kernel Nat
  | 0 => pure made
  | limit + 1 => do
    if (← runPass) = 0 then return made
    runMore (made + 1) limit

/-- Makes passes until nothing runs any more, at most `limit`. Gives the number of passes in which
something ran. -/
def runUntilIdle (limit : Nat) : StateM Kernel Nat :=
  runMore 0 limit

end BytecodeKernel.Kernel
