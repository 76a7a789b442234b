import BytecodeKernel.Kernel.System
/-!
How processes come into being, get their program and end. A process ends in two steps: it leaves the
registry and its worker, and then it gives back what it held. When a subtree ends, all of it has
left the registry before any of it gives anything back.
-/

namespace BytecodeKernel.Kernel

/-- Refuses an identity that is not registered. -/
def requireRegistered (id : Nat) : KernelM Unit := do
  if ¬ (← TenantM.self).IsRegistered id then throw (.unknownProcess id)

/-- Makes room for the regions of a new process if that is possible. -/
def makeRoom (bytes : Nat) : KernelM Unit :=
  TenantM.onArena .memory fun a => .ok ((), a.reserveOrKeep (min bytes (addressLimit - 1)))

/-- Creates a process, with a parent that is registered or none. An identity that was handed out is
used up, also when there is no memory for the process. -/
def generateUnder (parent : Option Nat) : KernelM Nat := do
  let { settings, nextId := id, .. } ← TenantM.self
  if settings.maxProcesses ≤ id then throw (.processLimit settings.maxProcesses)
  TenantM.modifySelf ({ · with nextId := id + 1 })
  makeRoom (settings.heapBytes + settings.stackBytes)
  let context ← TenantM.onArena .memory (Context.create settings.heapBytes settings.stackBytes)
  TenantM.modifySelf (·.enter parent id context)
  return id

/-- Creates a process, a child of another or of none. -/
def generate (parent : Option Nat) : KernelM Nat := do
  if let some parent := parent then requireRegistered parent
  generateUnder parent

/-- Refuses a process that is halted or has a program. -/
def requireBindable (id : Nat) : KernelM Unit := do
  match (← TenantM.self).process? id with
  | none => throw (.unknownProcess id)
  | some p =>
    if p.halted then throw (.halted id)
    if p.isBound then throw (.alreadyBound id)

/-- Whether a process has a program in the block that starts at `base`. -/
def holdsBlock (s : System) (base : Nat) : Bool :=
  s.processes.values.any fun p => p.image.any (·.base == base)

/-- The arena without a program block, unless a process still has a program in it. -/
def dropImage (s : System) (image : Image) (a : Arena) : Arena :=
  if holdsBlock s image.base then a else a.discard image.base

/-- What is left when someone drops a handle of an image. The last handle takes the image along; if
another one is `kept`, it is not the last. -/
def dropHandle (image : Image) (kept : Bool) (k : Kernel) : Kernel :=
  if kept then k else (k.1, dropImage k.1 image k.2)

theorem system_dropHandle (image : Image) (kept : Bool) (k : Kernel) :
    (dropHandle image kept k).1 = k.1 := by
  cases kept <;> rfl

/-- Gives a process a program that is in the arena, and with it a handle of the program. If it is
refused the handle is dropped. -/
def bindImage (id : Nat) (image : Image) (kept : Bool) : KernelM Unit := do
  tryCatch (requireBindable id) fun e => do
    modify (dropHandle image kept)
    throw e
  TenantM.modifySelf (·.modifyProcess id ({ · with image := some image }))

/-- Gives a process a program, which is stored in the arena. -/
def bindProgram (id : Nat) (bytes : List UInt8) : KernelM Unit := do
  requireBindable id
  let image ← TenantM.onArena .memory (Image.load bytes)
  bindImage id image false

/-- Stores a program in the arena, to begin at `entry`. No process has it yet, so what can fail is
the memory alone. -/
def loadImage (bytes : List UInt8) (entry : Nat) : TenantM MemoryError System Image := do
  let image ← TenantM.onArena id (Image.load bytes)
  return image.enteredAt entry

/-- Hangs a process for good and takes from it what it holds. A process that is halted holds
nothing, and is hung only. -/
def release (id : Nat) (k : Kernel) : Kernel :=
  let (s, a) := k
  match s.process? id with
  | none => k
  | some p =>
    if p.halted then (s.modifyProcess id (·.hang), a)
    else
      let s := s.modifyProcess id (·.halt)
      let a := p.context.elim a (·.release a)
      (s, p.image.elim a (dropImage s · a))

/-- Halts a process. Its children go on. -/
def halt (id : Nat) : KernelM Unit := do
  requireRegistered id
  TenantM.modifySelf (·.unregister id)
  modify (release id)

/-- Takes those of these processes that are registered off the registry and hangs them, beginning
with the last, and gives them. -/
def detach (s : System) : List Nat → List Nat × System
  | [] => ([], s)
  | id :: rest =>
    let (found, s) := detach s rest
    if s.IsRegistered id then (id :: found, (s.unregister id).modifyProcess id (·.hang))
    else (found, s)

/-- What there is to do about a process of a subtree that ends. -/
inductive Ending where
  /-- Its children have not been looked at. -/
  | expand (id : Nat)
  /-- It comes after its children. -/
  | release (id : Nat)

def Ending.cost : Ending → Nat
  | expand _ => 2
  | release _ => 1

/-- The steps of a halt that are left at most. -/
def costOf (pending : List Ending) (s : System) : Nat :=
  (pending.map Ending.cost).foldr (· + ·) 0 + 2 * s.registry.size

theorem cost_expand (ids : List Nat) (steps : Nat) :
    ((ids.map Ending.expand).map Ending.cost).foldr (· + ·) steps = 2 * ids.length + steps := by
  induction ids with
  | nil => exact (Nat.zero_add steps).symm
  | cons id rest ih =>
    simp only [List.map_cons, List.foldr_cons, ih, Ending.cost, List.length_cons]
    omega

theorem registry_modifyProcess (s : System) (id : Nat) (f : Process → Process) :
    (s.modifyProcess id f).registry = s.registry := rfl

theorem registry_release (id : Nat) (k : Kernel) : (release id k).1.registry = k.1.registry := by
  obtain ⟨s, a⟩ := k
  simp only [release]
  split
  · rfl
  · split <;> rfl

/-- Each process that is found was registered before and is not any more. -/
theorem size_registry_detach (s : System) (ids : List Nat) :
    (detach s ids).2.registry.size + (detach s ids).1.length = s.registry.size := by
  induction ids with
  | nil => rfl
  | cons id rest ih =>
    simp only [detach]
    split
    · rename_i hregistered
      have hmem : id ∈ (detach s rest).2.registry := hregistered
      have hpos : (detach s rest).2.registry.size ≠ 0 := by
        intro hzero
        have hempty : (detach s rest).2.registry.isEmpty := by
          simp [Std.TreeSet.isEmpty_eq_size_eq_zero, hzero]
        rw [Std.TreeSet.isEmpty_iff_forall_not_mem] at hempty
        exact hempty id hmem
      simp only [registry_modifyProcess, System.unregister, Std.TreeSet.size_erase,
        if_pos (Std.TreeSet.contains_iff_mem.2 hmem), List.length_cons]
      omega
    · exact ih

/-- Goes through a subtree that ends. The children of a process are read when it has left the
registry, and it gives back what it held when they have. -/
def sweep (pending : List Ending) (k : Kernel) : Kernel :=
  match pending with
  | [] => k
  | .release id :: rest => sweep rest (release id k)
  | .expand id :: rest =>
    let found := detach k.1 (k.1.childrenOf id)
    sweep (found.1.map .expand ++ .release id :: rest) (found.2, k.2)
termination_by costOf pending k.1
decreasing_by
  · simp only [costOf, registry_release, List.map_cons, List.foldr_cons, Ending.cost]
    omega
  · have hsize := size_registry_detach k.1 (k.1.childrenOf id)
    simp only [costOf, List.map_append, List.foldr_append, cost_expand, List.map_cons,
      List.foldr_cons, Ending.cost]
    omega

/-- Halts a process and all below it. -/
def haltSubtree (id : Nat) : KernelM Unit := do
  requireRegistered id
  TenantM.modifySelf fun s => (s.unregister id).modifyProcess id (·.hang)
  modify (sweep [.expand id])

/-- Carries out a request and goes on where it left off, also when it was refused. -/
def attempt (x : KernelM Unit) (k : Kernel) : Kernel :=
  match x k with
  | .ok _ k => k
  | .error _ k => k

/-- Halts a process, whether the registry has it or not. -/
def close (id : Nat) (k : Kernel) : Kernel :=
  if k.1.IsRegistered id then attempt (halt id) k else release id k

/-- Halts a process and all below it, whether the registry has it or not. -/
def closeSubtree (id : Nat) (k : Kernel) : Kernel :=
  if k.1.IsRegistered id then attempt (haltSubtree id) k else release id k

/-- Halts processes and all below them. Those that are no longer registered are passed over. -/
def haltEach (ids : List Nat) (k : Kernel) : Kernel :=
  ids.foldl (fun k id => attempt (haltSubtree id) k) k

/-- Puts a worker to sleep and halts what it owned, with all below. -/
def retire (index : Nat) (k : Kernel) : Kernel :=
  let (s, a) := k
  let owned := (s.workers[index]?.map (·.owned)).getD []
  haltEach owned (s.modifyWorker index ({ · with awake := false, owned := [] }), a)

/-- Retires every worker and halts every process that is left. -/
def shutdown (k : Kernel) : Kernel :=
  let (s, a) := k
  let k := (List.range s.workers.length).foldl (fun k index => retire index k)
    ({ s with keepAlive := false }, a)
  haltEach k.1.registry.toList k

end BytecodeKernel.Kernel
