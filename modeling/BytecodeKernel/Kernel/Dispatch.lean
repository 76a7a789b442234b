import BytecodeKernel.Kernel.Lifecycle
/-!
Dispatch: a process goes to the awake worker with the least load and to no other.
-/

namespace BytecodeKernel.Kernel

/-- The workers when the one at `index` owns a process. -/
def assignTo (index id : Nat) (workers : List Worker) : List Worker :=
  workers.mapIdx fun i w => if i = index then w.assign id else w.remove id

/-- Hands a process to a worker and says to which. -/
def dispatch (id : Nat) : KernelM Nat := do
  requireRegistered id
  match (← TenantM.self).leastLoaded? with
  | none => throw .noWorkerAvailable
  | some index =>
    TenantM.modifySelf fun s => { s with workers := assignTo index id s.workers }
    return index

@[simp] theorem length_assignTo (index id : Nat) (workers : List Worker) :
    (assignTo index id workers).length = workers.length := by
  simp [assignTo]

/-- After an assignment no other worker owns the process. -/
theorem mem_owned_assignTo {index id i : Nat} {workers : List Worker} {w : Worker}
    (h : (assignTo index id workers)[i]? = some w) : id ∈ w.owned ↔ i = index := by
  simp only [assignTo, List.getElem?_mapIdx, Option.map_eq_some_iff] at h
  obtain ⟨old, -, rfl⟩ := h
  split <;> simp_all

end BytecodeKernel.Kernel
