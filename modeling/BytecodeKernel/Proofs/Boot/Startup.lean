import BytecodeKernel.Boot.Loader
import BytecodeKernel.Proofs.Kernel.Balance
import BytecodeKernel.Proofs.Kernel.Solos
/-!
What a boot leaves behind. It finds its program first and touches the kernel only then: it enters a
process, stores the program for it and hands it to a worker. Each of these may be refused when those
before it have been done, and then the process is halted again. Nobody had time to refer to it, so
that what it held goes back, and the kernel is as it was but for an identity that is used up.
-/

namespace BytecodeKernel

namespace Boot

open ImageFiles Kernel

/-! ### The program -/

/-- The program is that of the named file, or the built-in one where there is no such file and the
settings allow for it. -/
inductive Provides (files : ImageFiles) (settings : BootSettings) : List UInt8 → Prop
  | named {number : Nat} (hname : IsPlainName settings.image)
    (hfile : files.directory.lookup? settings.image = some (.file number))
    (hbytes : files.directory.bytes number ≠ []) :
    Provides files settings (files.directory.bytes number)
  | builtin (hname : IsPlainName settings.image)
    (hmissing : ∀ number, files.directory.lookup? settings.image ≠ some (.file number))
    (hfallback : settings.fallback = true) : Provides files settings builtinImage

/-- Why there is no program to boot. -/
inductive Unfit (files : ImageFiles) (settings : BootSettings) : BootError → Prop
  | name (hname : ¬ IsPlainName settings.image) :
    Unfit files settings (.invalidName settings.image)
  | missing (hname : IsPlainName settings.image)
    (hmissing : ∀ number, files.directory.lookup? settings.image ≠ some (.file number))
    (hfallback : settings.fallback = false) :
    Unfit files settings (.imageNotFound settings.image files.root)
  | empty {number : Nat} (hname : IsPlainName settings.image)
    (hfile : files.directory.lookup? settings.image = some (.file number))
    (hbytes : files.directory.bytes number = []) :
    Unfit files settings (.emptyImage settings.image)

variable {files : ImageFiles} {settings : BootSettings}

theorem load_of_not_plain {name : String} (hname : ¬ IsPlainName name) :
    files.load name = .error (.invalidName name) := by
  simp only [ImageFiles.load, find, if_neg hname]
  rfl

theorem load_of_missing {name : String} (hname : IsPlainName name)
    (hmissing : ∀ number, files.directory.lookup? name ≠ some (.file number)) :
    files.load name = .error (.imageNotFound name files.root) := by
  simp only [ImageFiles.load, find, if_pos hname]
  cases hentry : files.directory.lookup? name with
  | none => rfl
  | some entry =>
    cases entry with
    | file number => exact absurd hentry (hmissing number)
    | folder => rfl

theorem load_of_file {name : String} {number : Nat} (hname : IsPlainName name)
    (hfile : files.directory.lookup? name = some (.file number)) :
    files.load name =
      if files.directory.bytes number = [] then .error (.emptyImage name)
      else .ok (files.directory.bytes number) := by
  simp only [ImageFiles.load, find, if_pos hname, hfile, bind, Except.bind]
  split <;> rfl

theorem resolve_cases (files : ImageFiles) (settings : BootSettings) :
    (∃ bytes, Provides files settings bytes ∧ resolve files settings = .ok bytes) ∨
      ∃ cause, Unfit files settings cause ∧
        resolve files settings = .error (.notLoaded settings.image files.root cause) := by
  by_cases hname : IsPlainName settings.image
  · by_cases hfile : ∃ number, files.directory.lookup? settings.image = some (.file number)
    · obtain ⟨number, hfile⟩ := hfile
      have hload := load_of_file hname hfile
      by_cases hbytes : files.directory.bytes number = []
      · rw [if_pos hbytes] at hload
        exact .inr ⟨_, .empty hname hfile hbytes, by rw [resolve, hload]⟩
      · rw [if_neg hbytes] at hload
        exact .inl ⟨_, .named hname hfile hbytes, by rw [resolve, hload]⟩
    · have hmissing := not_exists.1 hfile
      have hload := load_of_missing hname hmissing
      cases hfallback : settings.fallback with
      | false =>
        refine .inr ⟨_, .missing hname hmissing hfallback, ?_⟩
        rw [resolve, hload, hfallback]
      | true =>
        refine .inl ⟨_, .builtin hname hmissing hfallback, ?_⟩
        rw [resolve, hload, hfallback]
  · exact .inr ⟨_, .name hname, by rw [resolve, load_of_not_plain hname]⟩

/-! ### The steps of a boot -/

variable {held : List (Nat × Nat)} {s : System} {a b : Arena} {k : Kernel} {id index : Nat}
  {context : Context} {image : Image}

/-- The record of a root process that has no program yet. -/
def rootRecord (settings : BootSettings) (id : Nat) (context : Context) : Process :=
  { id
    context := some context
    priority := settings.priority
    name := Utf8.encode settings.image.toList }

/-- The system with a root process. -/
def rooted (settings : BootSettings) (s : System) (context : Context) : System :=
  (s.entered none context).modifyProcess s.nextId ({ · with
    priority := settings.priority
    name := Utf8.encode settings.image.toList })

theorem process?_rooted (settings : BootSettings) (s : System) (context : Context) (j : Nat) :
    (rooted settings s context).process? j =
      if j = s.nextId then some (rootRecord settings s.nextId context) else s.process? j := by
  rw [rooted, System.process?_modifyProcess, System.process?_entered, System.process?_entered]
  by_cases hj : j = s.nextId
  · rw [if_pos hj.symm, if_pos rfl, if_pos hj]
    rfl
  · rw [if_neg (Ne.symm hj), if_neg hj, if_neg hj]
    rfl

theorem bindable_rooted (settings : BootSettings) (s : System) (context : Context) :
    Bindable (rooted settings s context) s.nextId := by
  refine ⟨rootRecord settings s.nextId context, ?_, rfl, rfl⟩
  rw [process?_rooted, if_pos rfl]

theorem isRegistered_rooted (settings : BootSettings) (s : System) (context : Context) {j : Nat} :
    (rooted settings s context).IsRegistered j ↔ j = s.nextId ∨ s.IsRegistered j := by
  show (s.entered none context).IsRegistered j ↔ j = s.nextId ∨ s.IsRegistered j
  exact System.isRegistered_entered

theorem isRegistered_bound_rooted (settings : BootSettings) (s : System) (context : Context)
    (image : Image) :
    (bound (rooted settings s context) s.nextId image).IsRegistered s.nextId := by
  rw [bound, System.isRegistered_congr (registry_modifyProcess _ _ _)]
  exact (isRegistered_rooted settings s context).2 (.inl rfl)

/-- A process that may get a program is refused it for want of memory alone. -/
theorem bindProgram_of_bindable (h : Bindable k.1 id) (bytes : List UInt8) :
    bindProgram id bytes k =
      match Image.load bytes k.2 with
      | .ok (image, a) => .ok () (bound k.1 id image, a)
      | .error e => .error (.memory e) k := by
  simp only [bindProgram, bind, EStateM.bind, requireBindable_of_bindable h, TenantM.onArena]
  cases Image.load bytes k.2 with
  | error e => rfl
  | ok result => exact bindImage_of_bindable (k := (k.1, result.2)) h result.1 false

/-- A start that fails halts the process. -/
theorem start_of_bindable (h : Bindable k.1 id) (bytes : List UInt8) :
    start id bytes k =
      match Image.load bytes k.2 with
      | .error e => .error (.memory e) (attempt (halt id) k)
      | .ok (image, a) =>
        match dispatch id (bound k.1 id image, a) with
        | .ok _ k => .ok () k
        | .error e k => .error e (attempt (halt id) k) := by
  simp only [start, tryCatch, tryCatchThe, MonadExceptOf.tryCatch, EStateM.tryCatch, bind,
    EStateM.bind, bindProgram_of_bindable h]
  cases Image.load bytes k.2 with
  | error e => rfl
  | ok result =>
    dsimp only
    cases dispatch id (bound k.1 id result.1, result.2) <;> rfl

theorem boot_eq (files : ImageFiles) (settings : BootSettings) (k : Kernel) :
    boot files settings k =
      match resolve files settings with
      | .error e => .error e k
      | .ok bytes =>
        match generate none k with
        | .error e k => .error (.notCreated e) k
        | .ok id k =>
          match start id bytes (k.1.modifyProcess id ({ · with
              priority := settings.priority
              name := Utf8.encode settings.image.toList }), k.2) with
          | .error e k => .error (.notStarted id e) k
          | .ok _ k => .ok id k := by
  simp only [boot]
  cases resolve files settings with
  | error e => rfl
  | ok bytes =>
    simp only [bind, EStateM.bind, EStateM.adaptExcept, pure, EStateM.pure]
    cases generate none k with
    | error e k => rfl
    | ok id k =>
      simp only [TenantM.modifySelf]
      cases start id bytes _ <;> rfl

/-- What a boot can come to. -/
inductive Boots (files : ImageFiles) (settings : BootSettings) (s : System) (a : Arena) :
    EStateM.Result BootFailure Kernel Nat → Prop
  | notLoaded {cause : BootError} (hunfit : Unfit files settings cause) :
    Boots files settings s a (.error (.notLoaded settings.image files.root cause) (s, a))
  | notAllowed {bytes : List UInt8} (hbytes : Provides files settings bytes)
    (hlimit : s.settings.maxProcesses ≤ s.nextId) :
    Boots files settings s a
      (.error (.notCreated (.processLimit s.settings.maxProcesses)) (s, a))
  | noRoom {bytes : List UInt8} {e : MemoryError} (hbytes : Provides files settings bytes)
    (hcreate : Context.create s.settings.heapBytes s.settings.stackBytes
      (roomFor s.settings a) = .error e) :
    Boots files settings s a (.error (.notCreated (.memory e)) (s.counted, roomFor s.settings a))
  | noRoomForImage {bytes : List UInt8} {context : Context} {b : Arena} {e : MemoryError}
    (hbytes : Provides files settings bytes)
    (hcreate : Context.create s.settings.heapBytes s.settings.stackBytes
      (roomFor s.settings a) = .ok (context, b))
    (hload : Image.load bytes b = .error e) :
    Boots files settings s a (.error (.notStarted s.nextId (.memory e))
      (reached (halt s.nextId (rooted settings s context, b))))
  | noWorker {bytes : List UInt8} {context : Context} {b c : Arena} {image : Image}
    (hbytes : Provides files settings bytes)
    (hcreate : Context.create s.settings.heapBytes s.settings.stackBytes
      (roomFor s.settings a) = .ok (context, b))
    (hload : Image.load bytes b = .ok (image, c))
    (hasleep : ∀ w ∈ s.workers, w.awake = false) :
    Boots files settings s a (.error (.notStarted s.nextId .noWorkerAvailable)
      (reached (halt s.nextId (bound (rooted settings s context) s.nextId image, c))))
  | booted {bytes : List UInt8} {context : Context} {b c : Arena} {image : Image} {index : Nat}
    {w : Worker} (hbytes : Provides files settings bytes)
    (hcreate : Context.create s.settings.heapBytes s.settings.stackBytes
      (roomFor s.settings a) = .ok (context, b))
    (hload : Image.load bytes b = .ok (image, c))
    (hfound : s.workers[index]? = some w) (hawake : w.awake = true) :
    Boots files settings s a (.ok s.nextId
      ({ bound (rooted settings s context) s.nextId image with
        workers := assignTo index s.nextId s.workers }, c))

/-- What is left once the process has its memory. -/
theorem boots_of_create {bytes : List UInt8} (hbytes : Provides files settings bytes)
    (hcreate : Context.create s.settings.heapBytes s.settings.stackBytes
      (roomFor s.settings a) = .ok (context, b)) :
    Boots files settings s a
      (match start s.nextId bytes (rooted settings s context, b) with
      | .error e k => .error (.notStarted s.nextId e) k
      | .ok _ k => .ok s.nextId k) := by
  have hbindable := bindable_rooted settings s context
  rw [start_of_bindable (k := (rooted settings s context, b)) hbindable]
  cases hload : Image.load bytes b with
  | error e =>
    simp only [attempt_eq_reached]
    exact .noRoomForImage hbytes hcreate hload
  | ok result =>
    obtain ⟨image, c⟩ := result
    have hregistered := isRegistered_bound_rooted settings s context image
    cases hindex : (bound (rooted settings s context) s.nextId image).leastLoaded? with
    | none =>
      have hasleep := System.leastLoaded?_eq_none_iff.1 hindex
      have hdispatch := dispatch_of_all_asleep
        (k := (bound (rooted settings s context) s.nextId image, c)) hregistered hasleep
      simp only [hdispatch, attempt_eq_reached]
      exact .noWorker hbytes hcreate hload hasleep
    | some index =>
      obtain ⟨w, hw⟩ := System.leastLoaded_of_eq_some hindex
      have hdispatch := dispatch_of_leastLoaded
        (k := (bound (rooted settings s context) s.nextId image, c)) hregistered hindex
      simp only [hdispatch]
      exact .booted hbytes hcreate hload hw.found hw.awake

theorem boots (files : ImageFiles) (settings : BootSettings) (s : System) (a : Arena) :
    Boots files settings s a (boot files settings (s, a)) := by
  rw [boot_eq]
  rcases resolve_cases files settings with ⟨bytes, hbytes, hresolve⟩ | ⟨cause, hunfit, hresolve⟩
  · have hgenerate : generate none (s, a) = generateUnder none (s, a) := rfl
    simp only [hresolve, hgenerate, generateUnder_eq]
    by_cases hlimit : s.settings.maxProcesses ≤ s.nextId
    · rw [if_pos hlimit]
      exact .notAllowed hbytes hlimit
    · rw [if_neg hlimit]
      cases hcreate : Context.create s.settings.heapBytes s.settings.stackBytes
        (roomFor s.settings a) with
      | error e => exact .noRoom hbytes hcreate
      | ok result => exact boots_of_create hbytes hcreate
  · rw [hresolve]
    exact .notLoaded hunfit

/-! ### What a boot keeps -/

/-- What the requests of a start keep, the start keeps, whether it succeeds or not. -/
theorem preserves_start {P : Kernel → Prop} {bytes : List UInt8}
    (hbind : Preserves P (bindProgram id bytes))
    (hdispatch : Preserves P (dispatch id)) (hhalt : Preserves P (halt id)) :
    Preserves P (start id bytes) := by
  refine .tryCatch ?_ fun e => ?_
  · exact .bind hbind fun _ => .bind hdispatch fun _ => .pure _
  · exact .bind (fun k hk => Upholds.attempt hhalt hk) fun _ => .throw e

theorem modifyProcess_modifyProcess (s : System) (id : Nat) (f g : Process → Process) :
    (s.modifyProcess id f).modifyProcess id g = s.modifyProcess id fun p => g (f p) := by
  rw [System.modifyProcess, System.modifyProcess, System.modifyProcess]
  exact congrArg (fun processes => { s with processes }) (modify_modify s.processes id f g)

/-- An operation that is one request leads from reachable states to reachable ones. -/
theorem preserves_reachable {α : Type} {x : KernelM α} (op : Op) (hop : ¬ op.IsBindImage)
    (hx : ∀ k, perform k op = reached (x k)) : Preserves (Reachable held) x := by
  refine .of_reached fun k hk => ?_
  rw [← hx]
  exact hk.perform op hop

/-- A boot makes the requests that any client can make, so that there may be others after it. -/
theorem preserves_boot_reachable (files : ImageFiles) (settings : BootSettings) :
    Preserves (Reachable held) (boot files settings) := by
  rw [boot]
  cases resolve files settings with
  | error e => exact fun k hk => hk
  | ok bytes =>
    refine .bind (.pure bytes) fun bytes => ?_
    refine .bind ?_ fun id => .bind (fun k hk => ?_) fun _ => .bind ?_ fun _ => .pure id
    · exact (preserves_reachable (.generate none) not_false fun _ => rfl).adaptExcept
    · -- The name and the priority are given in one step, which clients do in two.
      have hpriority := hk.perform (.setPriority id settings.priority) not_false
      have hname := hpriority.perform (.setName id (Utf8.encode settings.image.toList)) not_false
      rw [perform, perform, modifyProcess_modifyProcess] at hname
      exact hname
    · refine (preserves_start ?_ ?_ ?_).adaptExcept
      · exact preserves_reachable (.bindProgram id bytes) not_false fun _ => rfl
      · exact preserves_reachable (.dispatch id) not_false fun _ => rfl
      · exact preserves_reachable (.halt id) not_false fun _ => rfl

/-! ### One process more -/

/-- The system has one process more, which no worker has. -/
structure Adds (s : System) (id : Nat) (p : Process) (t : System) : Prop where
  registered : ∀ j, t.IsRegistered j ↔ j = id ∨ s.IsRegistered j
  record : ∀ j, t.process? j = if j = id then some p else s.process? j
  workers : t.workers = s.workers

/-- Registry and workers are as before, and every record is still there. -/
structure Restores (s t : System) : Prop where
  registered : ∀ j, t.IsRegistered j ↔ s.IsRegistered j
  workers : t.workers = s.workers
  records : ∀ j p, s.process? j = some p → t.process? j = some p

variable {t : System} {p : Process}

theorem adds_rooted (settings : BootSettings) (s : System) (context : Context) :
    Adds s s.nextId (rootRecord settings s.nextId context) (rooted settings s context) :=
  ⟨fun _ => isRegistered_rooted settings s context, process?_rooted settings s context, rfl⟩

theorem Adds.bound (h : Adds s id p t) (image : Image) :
    Adds s id { p with image := some image } (bound t id image) := by
  refine ⟨fun j => ?_, fun j => ?_, h.workers⟩
  · rw [Kernel.bound, System.isRegistered_congr (registry_modifyProcess _ _ _), h.registered j]
  · rw [Kernel.bound, System.process?_modifyProcess, h.record j, h.record id, if_pos rfl]
    by_cases hj : j = id
    · rw [if_pos hj.symm, if_pos hj]
      rfl
    · rw [if_neg (Ne.symm hj), if_neg hj, if_neg hj]

/-- The halt of a process that nobody refers to takes it away again. -/
theorem Adds.halt (h : Adds s s.nextId p t) (hs : s.Orderly ∅) (halive : p.halted = false)
    (a : Arena) : Restores s (reached (Kernel.halt s.nextId (t, a))).1 := by
  have hrecord : t.process? s.nextId = some p := by rw [h.record, if_pos rfl]
  have hhalt : (reached (Kernel.halt s.nextId (t, a))).1 =
      (t.unregister s.nextId).modifyProcess s.nextId (·.halt) := by
    rw [halt_eq, if_pos ((h.registered _).2 (.inl rfl))]
    exact release_of_alive (k := (t.unregister s.nextId, a)) hrecord halive
  rw [hhalt]
  refine ⟨fun j => ?_, ?_, fun j q hq => ?_⟩
  · rw [System.isRegistered_congr (registry_modifyProcess _ _ _), System.isRegistered_unregister,
      h.registered j]
    have hfresh := hs.not_isRegistered_nextId
    constructor
    · rintro ⟨hj, hne⟩
      exact hj.resolve_left hne
    · intro hj
      exact ⟨.inr hj, fun heq => hfresh (heq ▸ hj)⟩
  · -- No worker had the process yet, so none loses anything.
    show t.workers.map (·.remove s.nextId) = s.workers
    rw [h.workers]
    refine (List.map_congr_left fun w hw => ?_).trans (List.map_id s.workers)
    exact Worker.remove_of_not_mem (hs.nextId_not_mem_owned hw)
  · have hne : j ≠ s.nextId := Nat.ne_of_lt (hs.related.named j q hq).2
    rw [System.process?_modifyProcess, if_neg hne.symm]
    show t.process? j = some q
    rw [h.record j, if_neg hne]
    exact hq

/-! ### Memory -/

variable {regions : List (Nat × Nat)} {k' : Kernel}

/-- The memory of a new process adds to what lives in the arena, and no byte is written for it. -/
theorem owns_of_create (ha : a.Owns regions) {of : Settings}
    (hcreate : Context.create of.heapBytes of.stackBytes (roomFor of a) = .ok (context, b)) :
    b.Owns (context.regions ++ regions) ∧ SameBytes a b := by
  obtain ⟨hroom, hstore, hlimit⟩ :=
    ha.reserveOrKeep (min (of.heapBytes + of.stackBytes) (addressLimit - 1))
  obtain ⟨howns, -, -, hstore', hlimit'⟩ := Context.owns_of_create hroom hcreate
  exact ⟨howns, hstore'.trans hstore, hlimit'.trans hlimit⟩

/-- Where the same processes hold the same, the same blocks are live. -/
theorem Restores.live (h : Restores k.1 k'.1) (hk : Reachable held k) (hk' : Reachable held k') :
    k'.2.blocks.liveBlocks.Perm k.2.blocks.liveBlocks := by
  have hregistered : k'.1.registered.Perm k.1.registered := by
    refine (List.perm_ext_iff_of_nodup System.nodup_registered System.nodup_registered).2 ?_
    rintro ⟨j, q⟩
    rw [System.mem_registered, System.mem_registered, h.registered j]
    refine and_congr_right fun hj => ?_
    obtain ⟨p, hp, -⟩ := hk.orderly.recorded.alive j hj
    rw [hp, h.records j p hp]
  -- Whoever is not registered is halted and holds nothing, also where its record is new.
  have hregions : (k'.1.regions none).Perm (k.1.regions none) := by
    refine (System.regions_perm_registered hk'.orderly).trans (.trans ?_
      (System.regions_perm_registered hk.orderly).symm)
    exact (roomsOn_perm none hregistered).append (programsOn_perm hregistered)
  exact hk'.housed.owns.live.trans ((hregions.append_right held).trans hk.housed.owns.live.symm)

/-! ### Refusals -/

/-- Why a boot fails. -/
inductive Refusal (files : ImageFiles) (settings : BootSettings) (s : System) : BootFailure → Prop
  | notLoaded {cause : BootError} (hunfit : Unfit files settings cause) :
    Refusal files settings s (.notLoaded settings.image files.root cause)
  | notAllowed (hlimit : s.settings.maxProcesses ≤ s.nextId) :
    Refusal files settings s (.notCreated (.processLimit s.settings.maxProcesses))
  | noRoom (e : MemoryError) : Refusal files settings s (.notCreated (.memory e))
  | noRoomForImage (e : MemoryError) :
    Refusal files settings s (.notStarted s.nextId (.memory e))
  | noWorker (hasleep : ∀ w ∈ s.workers, w.awake = false) :
    Refusal files settings s (.notStarted s.nextId .noWorkerAvailable)

theorem Restores.refl (s : System) : Restores s s :=
  ⟨fun _ => .rfl, rfl, fun _ _ h => h⟩

theorem Restores.counted (s : System) : Restores s s.counted :=
  ⟨fun _ => .rfl, rfl, fun _ _ h => h⟩

/-- However far a boot came that fails, its process is gone again and no byte of others changed. -/
theorem Boots.restores (hs : s.Orderly ∅) (ha : a.Owns regions) {e : BootFailure}
    (h : Boots files settings s a (.error e k')) :
    Refusal files settings s e ∧ Restores s k'.1 ∧ Arena.Spares regions a k'.2 := by
  cases h with
  | notLoaded hunfit => exact ⟨.notLoaded hunfit, .refl s, .refl _ _⟩
  | notAllowed hbytes hlimit => exact ⟨.notAllowed hlimit, .refl s, .refl _ _⟩
  | noRoom hbytes hcreate =>
    obtain ⟨-, hstore, hlimit⟩ := ha.reserveOrKeep
      (min (s.settings.heapBytes + s.settings.stackBytes) (addressLimit - 1))
    exact ⟨.noRoom _, .counted s, Arena.spares_of_store_eq hlimit hstore _⟩
  | @noRoomForImage bytes context b e hbytes hcreate hload =>
    obtain ⟨-, hcreated⟩ := owns_of_create ha hcreate
    refine ⟨.noRoomForImage _, (adds_rooted settings s context).halt hs rfl b, ?_⟩
    exact (hcreated.trans (sameBytes_halt _ (rooted settings s context, b))).spares _
  | @noWorker bytes context b c image hbytes hcreate hload hasleep =>
    obtain ⟨howns, hcreated⟩ := owns_of_create ha hcreate
    obtain ⟨-, hloaded⟩ := Workspace.owns_of_load howns hload
    refine ⟨.noWorker hasleep, ((adds_rooted settings s context).bound image).halt hs rfl c, ?_⟩
    refine (hcreated.spares _).trans (.trans ?_ ((sameBytes_halt _ (_, c)).spares _))
    exact hloaded.subset fun r hr => List.mem_append_right _ hr

/-! ### The root process -/

/-- The root process was added, and nothing else. An awake worker has it, no record has it as a
child, and the bytes of its program are those that the boot was to load. -/
structure Booted (files : ImageFiles) (settings : BootSettings) (k : Kernel) (id : Nat)
    (k' : Kernel) : Prop where
  next : id = k.1.nextId
  fresh : k.1.process? id = none ∧ ¬ k.1.IsRegistered id
  registered : ∀ j, k'.1.IsRegistered j ↔ j = id ∨ k.1.IsRegistered j
  others : ∀ j, j ≠ id → k'.1.process? j = k.1.process? j
  orphan : ∀ j, id ∉ k'.1.childrenOf j
  root : ∃ bytes image context, Provides files settings bytes ∧
    k'.1.process? id = some { rootRecord settings id context with image := some image } ∧
    image.entry = 0 ∧ k'.2.read image.base image.length = .ok bytes ∧
    k'.2.blocks.liveBlocks.Perm (image.region :: (context.regions ++ k.2.blocks.liveBlocks))
  owner : ∃ index w, k'.1.workers[index]? = some w ∧ w.awake = true ∧
    ∀ (i : Nat) (v : Worker), k'.1.workers[i]? = some v → (id ∈ v.owned ↔ i = index)
  workers : k'.1.workers.map (·.without [id]) = k.1.workers
  spares : Arena.Spares k.2.blocks.liveBlocks k.2 k'.2

/-- Whoever has no parent yet gets none by getting a record without children. -/
theorem Adds.orphan (h : Adds s s.nextId p t) (hs : s.Orderly ∅) (hp : p.children = []) (j : Nat) :
    s.nextId ∉ t.childrenOf j := by
  rw [System.childrenOf, h.record j]
  by_cases hj : j = s.nextId
  · rw [if_pos hj]
    simp [hp]
  · rw [if_neg hj]
    cases hq : s.process? j with
    | none => exact List.not_mem_nil
    | some q => exact fun hmem => Nat.lt_irrefl _ (hs.related.between j q hq _ hmem).2

theorem Boots.booted_of_ok (hs : s.Orderly ∅) (ha : a.Sound)
    (h : Boots files settings s a (.ok id k')) : Booted files settings (s, a) id k' := by
  cases h with
  | @booted bytes context b c image index w hbytes hcreate hload hfound hawake =>
    have hadds := (adds_rooted settings s context).bound image
    have hlive : a.Owns a.blocks.liveBlocks := ⟨ha, .refl _⟩
    obtain ⟨howns, hcreated⟩ := owns_of_create hlive hcreate
    obtain ⟨howns', hloaded⟩ := Workspace.owns_of_load howns hload
    obtain ⟨hholds, -⟩ := Image.holds_of_load hload
    obtain ⟨-, -, -, -, hentry⟩ := Image.load_eq_ok hload
    refine ⟨rfl, ⟨hs.related.process?_nextId, hs.not_isRegistered_nextId⟩, hadds.registered, ?_,
      hadds.orphan hs rfl,
      ⟨bytes, image, context, hbytes, ?_, hentry, ?_, howns'.live⟩,
      ⟨index, w.assign s.nextId, ?_, ?_, fun i v => mem_owned_assignTo⟩, ?_, ?_⟩
    · exact fun j hj => (hadds.record j).trans (if_neg hj)
    · exact (hadds.record s.nextId).trans (if_pos rfl)
    · have hread := howns'.read List.mem_cons_self (Nat.le_refl _) (Nat.le_refl _)
      exact hread.trans (congrArg _ hholds)
    · show (assignTo index s.nextId s.workers)[index]? = _
      rw [assignTo, List.getElem?_mapIdx, hfound, Option.map_some, if_pos rfl]
    · rw [awake_assign, hawake]
    · refine (without_assignTo index s.nextId s.workers).trans ?_
      refine (List.map_congr_left fun v hv => ?_).trans (List.map_id s.workers)
      rw [← Worker.remove_eq_without]
      exact Worker.remove_of_not_mem (hs.nextId_not_mem_owned hv)
    · refine (hcreated.spares _).trans (hloaded.subset fun r hr => ?_)
      exact List.mem_append_right _ hr

/-! ### All or nothing -/

/-- Registry, workers, processes and live blocks are as before, and the bytes in these blocks. -/
structure Untouched (k k' : Kernel) : Prop extends Restores k.1 k'.1 where
  live : k'.2.blocks.liveBlocks.Perm k.2.blocks.liveBlocks
  spares : Arena.Spares k.2.blocks.liveBlocks k.2 k'.2

/-- A boot adds one process, without a parent and with the program, the name and the priority that
it was to get, and hands it to an awake worker, or it fails for one of few reasons, and then nothing
has changed. -/
theorem boot_all_or_nothing (hk : Reachable held k) (files : ImageFiles)
    (settings : BootSettings) :
    (∀ id k', boot files settings k = .ok id k' → Booted files settings k id k') ∧
      ∀ e k', boot files settings k = .error e k' →
        Refusal files settings k.1 e ∧ Untouched k k' := by
  obtain ⟨s, a⟩ := k
  have hboots := boots files settings s a
  have horderly : s.Orderly ∅ := hk.orderly
  have hsound : a.Sound := hk.housed.owns.sound
  refine ⟨fun id k' hboot => ?_, fun e k' hboot => ?_⟩
  · rw [hboot] at hboots
    exact hboots.booted_of_ok horderly hsound
  · have hk' : Reachable held k' := by
      have hend := preserves_boot_reachable files settings (s, a) hk
      rwa [hboot] at hend
    rw [hboot] at hboots
    obtain ⟨hrefusal, hrestores, hspares⟩ :=
      hboots.restores horderly ⟨hsound, List.Perm.refl a.blocks.liveBlocks⟩
    exact ⟨hrefusal, hrestores, hrestores.live hk hk', hspares⟩

/-! ### A boot beside other processes -/

def bootFiles : ImageFiles where
  root := "images"
  directory :=
    { entries := Std.TreeMap.empty.insert "kernel.img" (.file 0)
      contents := Std.TreeMap.empty.insert 0 [22, 0, 0, 0, 0]
      nextFile := 1 }

/-- The same processes, and no worker that is awake. -/
def dormantKernel : Kernel :=
  performAll mooredKernel [.sleepWorker 0, .sleepWorker 2]

/-- What an action failed for. -/
def failure? {ε σ α : Type} : EStateM.Result ε σ α → Option ε
  | .ok .. => none
  | .error e _ => some e

/-- While two workers are awake the first of them gets the root process. When all of them sleep the
root process is made, gets its program, and is taken away again. -/
theorem boot_of_moored :
    Reachable [] mooredKernel ∧ Reachable [] dormantKernel ∧
      (∃ k', boot bootFiles {} mooredKernel = .ok 4 k' ∧ Booted bootFiles {} mooredKernel 4 k') ∧
      ∃ k', boot bootFiles {} dormantKernel = .error (.notStarted 4 .noWorkerAvailable) k' ∧
        Untouched dormantKernel k' := by
  have hdormant : Reachable [] dormantKernel :=
    reachable_mooredKernel.performAll (by simp [Op.IsBindImage])
  refine ⟨reachable_mooredKernel, hdormant, ?_, ?_⟩
  · obtain ⟨id, k', hboot⟩ := exists_of_succeeds
      (x := boot bootFiles {} mooredKernel) (by decide +kernel)
    have hbooted := (boot_all_or_nothing reachable_mooredKernel bootFiles {}).1 id k' hboot
    have hcounter : mooredKernel.1.nextId = 4 := by decide +kernel
    obtain rfl : id = 4 := hbooted.next.trans hcounter
    exact ⟨k', hboot, hbooted⟩
  · have hfailure : failure? (boot bootFiles {} dormantKernel) =
        some (.notStarted 4 .noWorkerAvailable) := by decide +kernel
    cases hboot : boot bootFiles {} dormantKernel with
    | ok id k' => simp [hboot, failure?] at hfailure
    | error e k' =>
      obtain ⟨-, huntouched⟩ := (boot_all_or_nothing hdormant bootFiles {}).2 e k' hboot
      rw [hboot] at hfailure
      obtain rfl := Option.some.inj hfailure
      exact ⟨k', rfl, huntouched⟩

end Boot

end BytecodeKernel
