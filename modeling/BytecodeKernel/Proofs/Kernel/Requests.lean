import BytecodeKernel.Proofs.Kernel.Operations
/-!
The requests of a kernel as equations: what each of them gives and changes, and in which case. Later
modules read requests here and open none of them.
-/

namespace BytecodeKernel.Kernel

variable {k k' : Kernel} {id : Nat}

theorem requireRegistered_eq (id : Nat) (k : Kernel) :
    requireRegistered id k =
      if k.1.IsRegistered id then .ok () k else .error (.unknownProcess id) k := by
  by_cases hid : k.1.IsRegistered id <;>
    simp [requireRegistered, TenantM.self, hid, bind, EStateM.bind, pure, EStateM.pure, run_throw]

/-- A request that begins by asking for a registered process. -/
theorem requireRegistered_bind {α : Type} (id : Nat) (x : KernelM α) (k : Kernel) :
    (requireRegistered id >>= fun _ => x) k =
      if k.1.IsRegistered id then x k else .error (.unknownProcess id) k := by
  simp only [bind, EStateM.bind, requireRegistered_eq]
  by_cases hid : k.1.IsRegistered id
  · rw [if_pos hid, if_pos hid]
  · rw [if_neg hid, if_neg hid]

/-- The arena in which a new process is made. -/
def roomFor (s : Settings) (a : Arena) : Arena :=
  a.reserveOrKeep (min (s.heapBytes + s.stackBytes) (addressLimit - 1))

/-- A creation is refused at the limit, uses an identity up where the memory is short, and else
enters the next process. -/
theorem generateUnder_eq (parent : Option Nat) (s : System) (a : Arena) :
    generateUnder parent (s, a) =
      if s.settings.maxProcesses ≤ s.nextId then
        .error (.processLimit s.settings.maxProcesses) (s, a)
      else match Context.create s.settings.heapBytes s.settings.stackBytes
          (roomFor s.settings a) with
        | .ok (context, b) => .ok s.nextId (s.entered parent context, b)
        | .error e => .error (.memory e) (s.counted, roomFor s.settings a) := by
  by_cases hlimit : s.settings.maxProcesses ≤ s.nextId
  · rw [if_pos hlimit]
    simp [generateUnder, TenantM.self, hlimit, bind, EStateM.bind, run_throw]
  · rw [if_neg hlimit]
    simp only [generateUnder, makeRoom, TenantM.self, TenantM.modifySelf, TenantM.onArena, bind,
      EStateM.bind, hlimit, if_false]
    rw [← roomFor]
    cases Context.create s.settings.heapBytes s.settings.stackBytes (roomFor s.settings a) <;> rfl

theorem generate_some_eq (parent : Nat) (k : Kernel) :
    generate (some parent) k =
      if k.1.IsRegistered parent then generateUnder (some parent) k
      else .error (.unknownProcess parent) k :=
  requireRegistered_bind parent _ k

/-- The process has no program yet and may get one. -/
def Bindable (s : System) (id : Nat) : Prop :=
  ∃ p, s.process? id = some p ∧ p.halted = false ∧ p.image = none

theorem requireBindable_of_bindable (h : Bindable k.1 id) : requireBindable id k = .ok () k := by
  obtain ⟨p, hp, hhalted, himage⟩ := h
  simp [requireBindable, TenantM.self, hp, hhalted, Process.isBound, himage, bind, EStateM.bind,
    pure, EStateM.pure]

theorem requireBindable_of_halted {p : Process} (hp : k.1.process? id = some p)
    (hhalted : p.halted = true) : requireBindable id k = .error (.halted id) k := by
  simp only [requireBindable, TenantM.self, bind, EStateM.bind, hp, hhalted, if_true]
  rfl

theorem requireBindable_of_bound {p : Process} {image : Image} (hp : k.1.process? id = some p)
    (halive : p.halted = false) (himage : p.image = some image) :
    requireBindable id k = .error (.alreadyBound id) k := by
  simp only [requireBindable, TenantM.self, bind, EStateM.bind, hp, halive, Process.isBound,
    himage, Option.isSome_some, if_true]
  rfl

theorem requireBindable_of_not_bindable (h : ¬ Bindable k.1 id) :
    ∃ e, requireBindable id k = .error e k := by
  cases hp : k.1.process? id with
  | none =>
    simp only [requireBindable, TenantM.self, bind, EStateM.bind, hp]
    exact ⟨_, rfl⟩
  | some p =>
    cases hhalted : p.halted with
    | true => exact ⟨.halted id, requireBindable_of_halted hp hhalted⟩
    | false =>
      cases himage : p.image with
      | none => exact absurd ⟨p, hp, hhalted, himage⟩ h
      | some image => exact ⟨.alreadyBound id, requireBindable_of_bound hp hhalted himage⟩

/-- The system with a program given to a process. -/
def bound (s : System) (id : Nat) (image : Image) : System :=
  s.modifyProcess id ({ · with image := some image })

theorem bindImage_of_bindable (h : Bindable k.1 id) (image : Image) (kept : Bool) :
    bindImage id image kept k = .ok () (bound k.1 id image, k.2) := by
  simp only [bindImage, tryCatch, tryCatchThe, MonadExceptOf.tryCatch, EStateM.tryCatch, bind,
    EStateM.bind, requireBindable_of_bindable h]
  rfl

/-- A refused image is dropped. -/
theorem bindImage_of_refused {e : KernelError} (h : requireBindable id k = .error e k)
    (image : Image) (kept : Bool) :
    bindImage id image kept k = .error e (dropHandle image kept k) := by
  simp only [bindImage, tryCatch, tryCatchThe, MonadExceptOf.tryCatch, EStateM.tryCatch, bind,
    EStateM.bind, h]
  rfl

theorem bindImage_cases (id : Nat) (image : Image) (kept : Bool) (k : Kernel) :
    (Bindable k.1 id ∧ bindImage id image kept k = .ok () (bound k.1 id image, k.2)) ∨
      ∃ e, bindImage id image kept k = .error e (dropHandle image kept k) := by
  by_cases h : Bindable k.1 id
  · exact .inl ⟨h, bindImage_of_bindable h image kept⟩
  · obtain ⟨e, heq⟩ := requireBindable_of_not_bindable h
    exact .inr ⟨e, bindImage_of_refused heq image kept⟩

/-- A program that was stored is bound, for nothing else can refuse it then. -/
theorem bindProgram_cases (id : Nat) (bytes : List UInt8) (k : Kernel) :
    (∃ image a, Bindable k.1 id ∧ Image.load bytes k.2 = .ok (image, a) ∧
        bindProgram id bytes k = .ok () (bound k.1 id image, a)) ∨
      ∃ e, bindProgram id bytes k = .error e k := by
  simp only [bindProgram, bind, EStateM.bind]
  by_cases h : Bindable k.1 id
  · rw [requireBindable_of_bindable h]
    simp only [TenantM.onArena]
    cases hload : Image.load bytes k.2 with
    | error e => exact .inr ⟨_, rfl⟩
    | ok result =>
      obtain ⟨image, a⟩ := result
      have hbound : Bindable (k.1, a).1 id := h
      exact .inl ⟨image, a, h, rfl, bindImage_of_bindable hbound image false⟩
  · obtain ⟨e, heq⟩ := requireBindable_of_not_bindable h
    rw [heq]
    exact .inr ⟨e, rfl⟩

theorem dispatch_cases (id : Nat) (k : Kernel) :
    (∃ index, k.1.IsRegistered id ∧
        dispatch id k =
          .ok index ({ k.1 with workers := assignTo index id k.1.workers }, k.2)) ∨
      ∃ e, dispatch id k = .error e k := by
  rw [dispatch, requireRegistered_bind]
  split
  · rename_i hid
    simp only [bind, EStateM.bind, TenantM.self]
    cases k.1.leastLoaded? with
    | none => exact .inr ⟨_, rfl⟩
    | some index => exact .inl ⟨index, hid, rfl⟩
  · exact .inr ⟨_, rfl⟩

theorem spawn_eq (parent priority : Nat) (name : List UInt8) (k : Kernel) :
    spawn parent priority name k =
      match generate (some parent) k with
      | .ok id k' => .ok id (k'.1.modifyProcess id ({ · with priority, name }), k'.2)
      | .error e k' => .error e k' := by
  simp only [spawn, bind, EStateM.bind]
  cases generate (some parent) k <;> rfl

/-! ### Services -/

theorem serving_ok {α : Type} {x : KernelM α} {v : α} (h : x k = .ok v k') :
    serving x k = .ok v k' := by
  rw [serving, EStateM.adaptExcept, h]

theorem serving_error {α : Type} {x : KernelM α} {e : KernelError} (h : x k = .error e k') :
    serving x k = .error e.toFault k' := by
  rw [serving, EStateM.adaptExcept, h]

/-- A child is entered with its priority and its name, or nothing happens, or an identity is used up
for nothing. -/
theorem host_spawn_cases (parent priority : Nat) (name : List UInt8) (s : System) (a : Arena) :
    (∃ context b, Context.create s.settings.heapBytes s.settings.stackBytes
          (roomFor s.settings a) = .ok (context, b) ∧
        host.spawn parent priority name (s, a) = .ok s.nextId
          ((s.entered (some parent) context).modifyProcess s.nextId ({ · with priority, name }),
            b)) ∨
      (∃ e, host.spawn parent priority name (s, a) = .error e (s, a)) ∨
      ∃ e, host.spawn parent priority name (s, a) = .error (.memory e)
        (s.counted, roomFor s.settings a) := by
  show (∃ context b, _ ∧ serving (spawn parent priority name) (s, a) = _) ∨
    (∃ e, serving (spawn parent priority name) (s, a) = _) ∨
      ∃ e, serving (spawn parent priority name) (s, a) = _
  by_cases hparent : s.IsRegistered parent
  · by_cases hlimit : s.settings.maxProcesses ≤ s.nextId
    · refine .inr (.inl ⟨_, serving_error (e := .processLimit s.settings.maxProcesses) ?_⟩)
      rw [spawn_eq, generate_some_eq, if_pos hparent, generateUnder_eq, if_pos hlimit]
    · cases hcreate : Context.create s.settings.heapBytes s.settings.stackBytes
        (roomFor s.settings a) with
      | error e =>
        refine .inr (.inr ⟨e, serving_error (e := .memory e) ?_⟩)
        rw [spawn_eq, generate_some_eq, if_pos hparent, generateUnder_eq, if_neg hlimit, hcreate]
      | ok result =>
        refine .inl ⟨result.1, result.2, rfl, serving_ok ?_⟩
        rw [spawn_eq, generate_some_eq, if_pos hparent, generateUnder_eq, if_neg hlimit, hcreate]
  · refine .inr (.inl ⟨_, serving_error (e := .unknownProcess parent) ?_⟩)
    rw [spawn_eq, generate_some_eq, if_neg hparent]

theorem host_bind_cases (target : Nat) (image : Image) (k : Kernel) :
    (Bindable k.1 target ∧ host.bind target image k = .ok () (bound k.1 target image, k.2)) ∨
      ∃ e, host.bind target image k = .error e k := by
  show (_ ∧ serving (requireRegistered target >>= fun _ => bindImage target image true) k = _) ∨
    ∃ e, serving (requireRegistered target >>= fun _ => bindImage target image true) k = _
  by_cases htarget : k.1.IsRegistered target
  · rcases bindImage_cases target image true k with ⟨hbindable, heq⟩ | ⟨e, heq⟩
    · refine .inl ⟨hbindable, serving_ok ?_⟩
      rw [requireRegistered_bind, if_pos htarget, heq]
    · refine .inr ⟨_, serving_error (e := e) ?_⟩
      rw [requireRegistered_bind, if_pos htarget, heq]
      rfl
  · refine .inr ⟨_, serving_error (e := .unknownProcess target) ?_⟩
    rw [requireRegistered_bind, if_neg htarget]

theorem host_dispatch_cases (target : Nat) (k : Kernel) :
    (∃ index, k.1.IsRegistered target ∧ host.dispatch target k =
        .ok () ({ k.1 with workers := assignTo index target k.1.workers }, k.2)) ∨
      ∃ e, host.dispatch target k = .error e k := by
  show (∃ index, _ ∧ serving (dispatch target >>= fun _ => pure ()) k = _) ∨
    ∃ e, serving (dispatch target >>= fun _ => pure ()) k = _
  rcases dispatch_cases target k with ⟨index, htarget, heq⟩ | ⟨e, heq⟩
  · refine .inl ⟨index, htarget, serving_ok ?_⟩
    simp only [bind, EStateM.bind, heq]
    rfl
  · refine .inr ⟨_, serving_error (e := e) ?_⟩
    simp only [bind, EStateM.bind, heq]

theorem reached_host_print (origin : Nat) (text : String) (k : Kernel) :
    reached (host.print origin text k) =
      ({ k.1 with console := k.1.console.print origin text }, k.2) :=
  reached_print origin text k

/-! ### Ends -/

theorem halt_eq (id : Nat) (k : Kernel) :
    halt id k =
      if k.1.IsRegistered id then .ok () (release id (k.1.unregister id, k.2))
      else .error (.unknownProcess id) k :=
  requireRegistered_bind id _ k

theorem haltSubtree_eq (id : Nat) (k : Kernel) :
    haltSubtree id k =
      if k.1.IsRegistered id then
        .ok () (sweep [.expand id] ((k.1.unregister id).modifyProcess id (·.hang), k.2))
      else .error (.unknownProcess id) k :=
  requireRegistered_bind id _ k

end BytecodeKernel.Kernel
