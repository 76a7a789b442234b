import BytecodeKernel.Proofs.Kernel.Creation
import BytecodeKernel.Proofs.Kernel.Invariants
import BytecodeKernel.Proofs.Machine.Runs
/-!
What the operations of a kernel keep: the registry, the workers and the family stay in order, and
nothing is taken back. A program changes none of them but through its host, so a quantum keeps what
the four services keep, whatever bytes it runs.
-/

namespace BytecodeKernel.Kernel

variable {start : System} {ending : Set Nat} {id : Nat}

/-- The kernel is in order, and nothing was taken back from a system before. -/
structure Tracks (ending : Set Nat) (start : System) (k : Kernel) : Prop where
  orderly : k.1.Orderly ending
  follows : start.Follows k.1

theorem Tracks.step {k k' : Kernel} {ending' : Set Nat} (h : Tracks ending start k)
    (hstep : k'.1.Orderly ending' ∧ k.1.Follows k'.1) : Tracks ending' start k' :=
  ⟨hstep.1, h.follows.trans hstep.2⟩

theorem Tracks.modify {s : System} {a b : Arena} (h : Tracks ending start (s, a))
    {f : Process → Process} (hf : ∀ p, s.process? id = some p → p.Quiet (f p)) :
    Tracks ending start (s.modifyProcess id f, b) :=
  h.step (h.orderly.modify hf)

/-! ### Requests -/

theorem hoare_requireRegistered {P : Kernel → Prop} (id : Nat) :
    Hoare P (requireRegistered id) (fun _ k => P k ∧ k.1.IsRegistered id) P := by
  rintro ⟨s, a⟩ hs
  by_cases hid : s.IsRegistered id
  · have hok : requireRegistered id (s, a) = .ok () (s, a) := by
      simp [requireRegistered, TenantM.self, hid, bind, EStateM.bind, pure, EStateM.pure]
    rw [hok]
    exact ⟨hs, hid⟩
  · have herror : requireRegistered id (s, a) = .error (.unknownProcess id) (s, a) := by
      simp [requireRegistered, TenantM.self, hid, bind, EStateM.bind, run_throw]
    rw [herror]
    exact hs

theorem preserves_requireRegistered {P : Kernel → Prop} (id : Nat) :
    Preserves P (requireRegistered id) :=
  (hoare_requireRegistered id).weaken (fun _ h => h) (fun _ _ h => h.1) fun _ h => h

/-- An action on the arena alone. -/
theorem hoare_onArena {α : Type} {P E : System → Prop} (herror : ∀ s, P s → E s)
    (wrap : MemoryError → KernelError) (f : Arena → Except MemoryError (α × Arena)) :
    Hoare (fun k : Kernel => P k.1) (TenantM.onArena wrap f) (fun _ k => P k.1) (fun k => E k.1) :=
  TenantM.hoare_onArena (fun _ _ _ _ hs _ => hs) fun s _ _ hs _ => herror s hs

/-- A creation enters one process under the next identity, or at most uses the identity up. -/
theorem hoare_generateUnder {s : System} (parent : Option Nat) :
    Hoare (fun k : Kernel => k.1 = s) (generateUnder parent)
      (fun id k => id = s.nextId ∧ ∃ context, k.1 = s.entered parent context)
      (fun k => k.1 = s ∨ k.1 = s.counted) := by
  rw [generateUnder]
  -- What was read at the beginning is still the system when the identity is handed out.
  refine Hoare.bind (Q := fun t k => k.1 = s ∧ t = s) ?_ fun t => ?_
  · rintro ⟨t, a⟩ rfl
    exact ⟨rfl, rfl⟩
  refine Hoare.of_pre fun _ ht => ?_
  obtain rfl := ht.2
  apply Hoare.optional (M := fun k : Kernel => k.1 = t)
  · exact fun _ => Hoare.throw fun _ hk => .inl hk.1
  · exact fun _ _ hk => hk.1
  refine Hoare.bind (Q := fun _ k => k.1 = t.counted) ?_ fun _ => ?_
  · apply TenantM.hoare_modifySelf
    rintro u a rfl
    rfl
  have hcounted {α : Type} (wrap : MemoryError → KernelError)
      (f : Arena → Except MemoryError (α × Arena)) :
      Hoare (fun k : Kernel => k.1 = t.counted) (TenantM.onArena wrap f)
        (fun _ k => k.1 = t.counted) (fun k => k.1 = t ∨ k.1 = t.counted) :=
    hoare_onArena (P := (· = t.counted)) (E := fun u => u = t ∨ u = t.counted)
      (fun _ h => .inr h) wrap f
  refine Hoare.bind (hcounted _ _) fun _ => Hoare.bind (hcounted _ _) fun context => ?_
  refine Hoare.bind (Q := fun _ k => k.1 = t.entered parent context) ?_ fun _ => ?_
  · apply TenantM.hoare_modifySelf
    rintro u a rfl
    rfl
  · exact Hoare.pure fun k hk => ⟨rfl, context, hk⟩

theorem hoare_generate {s : System} (parent : Option Nat) :
    Hoare (fun k : Kernel => k.1 = s) (generate parent)
      (fun id k => id = s.nextId ∧ ∃ context, k.1 = s.entered parent context)
      (fun k => k.1 = s ∨ k.1 = s.counted) := by
  simp only [generate]
  cases parent with
  | none => exact hoare_generateUnder none
  | some parent =>
    refine Hoare.bind (Q := fun _ k => k.1 = s) ?_ fun _ => hoare_generateUnder (some parent)
    refine (preserves_requireRegistered parent).weaken (fun _ h => h) (fun _ _ h => h) ?_
    exact fun _ h => .inl h

theorem preserves_generate (parent : Option Nat) :
    Preserves (Tracks ∅ start) (generate parent) := by
  refine Hoare.of_each fun k hk => ?_
  refine (hoare_generate (s := k.1) parent).weaken ?_ ?_ ?_
  · rintro k' rfl
    rfl
  · rintro id k' ⟨-, context, heq⟩
    exact hk.step (heq ▸ hk.orderly.entered parent context)
  · rintro k' (heq | heq)
    · exact hk.step ⟨heq ▸ hk.orderly, heq ▸ .refl _⟩
    · exact hk.step (heq ▸ hk.orderly.counted)

theorem preserves_modifyProcess {f : Process → Process}
    (hf : ∀ p : Process, p.Quiet (f p)) (id : Nat) :
    Preserves (Tracks ending start)
      (TenantM.modifySelf (·.modifyProcess id f) : KernelM Unit) :=
  TenantM.hoare_modifySelf fun _ _ hk => hk.modify fun p _ => hf p

theorem preserves_spawn (parent priority : Nat) (name : List UInt8) :
    Preserves (Tracks ∅ start) (spawn parent priority name) := by
  refine .bind (preserves_generate _) fun id => ?_
  refine .bind (preserves_modifyProcess ?_ id) fun _ => .pure _
  exact fun p => (p.relabels_rename priority name).quiet

/-- A process that may get a program is not halted. -/
theorem hoare_requireBindable {P : Kernel → Prop} (id : Nat) :
    Hoare P (requireBindable id)
      (fun _ k => P k ∧ ∀ p, k.1.process? id = some p → p.halted = false) P := by
  refine Hoare.bind (TenantM.hoare_self (P := P)) fun s => ?_
  split
  · exact Hoare.throw fun _ hk => hk.1
  · rename_i p hp
    refine Hoare.ite (fun _ => Hoare.throw fun _ hk => hk.1) fun hhalted => ?_
    refine Hoare.ite (fun _ => Hoare.throw fun _ hk => hk.1) fun _ => Hoare.pure ?_
    rintro k ⟨hk, rfl⟩
    refine ⟨hk, fun q hq => ?_⟩
    rw [hp] at hq
    obtain rfl := Option.some.inj hq
    exact eq_false_of_ne_true hhalted

theorem Tracks.dropHandle {k : Kernel} (h : Tracks ending start k) (image : Image) (kept : Bool) :
    Tracks ending start (Kernel.dropHandle image kept k) := by
  have hsystem := system_dropHandle image kept k
  exact ⟨hsystem ▸ h.orderly, hsystem ▸ h.follows⟩

theorem preserves_bindImage (id : Nat) (image : Image) (kept : Bool) :
    Preserves (Tracks ending start) (bindImage id image kept) := by
  refine Hoare.bind (Q := fun _ k => Tracks ending start k ∧
    ∀ p, k.1.process? id = some p → p.halted = false) ?_ fun _ => TenantM.hoare_modifySelf ?_
  · refine Hoare.tryCatch (hoare_requireBindable id) fun e => ?_
    refine Hoare.bind (Q := fun _ => Tracks ending start) ?_ fun _ => Hoare.throw fun _ hk => hk
    exact fun k hk => hk.dropHandle image kept
  · rintro s a ⟨hk, halive⟩
    refine hk.modify fun p hp => ⟨rfl, rfl, rfl, fun hhalted => ?_⟩
    rw [halive p hp] at hhalted
    contradiction

theorem preserves_onArena {α : Type} (wrap : MemoryError → KernelError)
    (f : Arena → Except MemoryError (α × Arena)) :
    Preserves (Tracks ending start) (TenantM.onArena wrap f) :=
  TenantM.hoare_onArena (fun _ _ _ _ hk _ => ⟨hk.orderly, hk.follows⟩) fun _ _ _ hk _ => hk

theorem preserves_bindProgram (id : Nat) (bytes : List UInt8) :
    Preserves (Tracks ending start) (bindProgram id bytes) := by
  refine .bind ?_ fun _ =>
    .bind (preserves_onArena _ _) fun image => preserves_bindImage id image false
  exact (hoare_requireBindable id).weaken (fun _ h => h) (fun _ _ h => h.1) fun _ h => h

theorem preserves_dispatch (id : Nat) : Preserves (Tracks ending start) (dispatch id) := by
  refine Hoare.bind (hoare_requireRegistered id) fun _ => ?_
  refine Hoare.bind TenantM.hoare_self fun s => ?_
  split
  · exact Hoare.throw fun _ hk => hk.1.1
  · rename_i index hindex
    refine Hoare.bind (Q := fun _ => Tracks ending start) ?_ fun _ => Preserves.pure index
    apply TenantM.hoare_modifySelf
    rintro s a ⟨⟨hk, hid⟩, -⟩
    exact hk.step ⟨hk.orderly.assign hid index, System.follows_of_eq rfl (Nat.le_refl _)⟩

/-! ### The ends of processes -/

/-- A process that has left the registry gives back what it held, and is no longer about to. -/
theorem Tracks.release {k : Kernel} (h : Tracks ending start k) {fewer : Set Nat}
    (hid : ¬ k.1.IsRegistered id) (hfewer : fewer ⊆ ending) (hending : ending ⊆ insert id fewer) :
    Tracks fewer start (Kernel.release id k) := by
  obtain ⟨s, a⟩ := k
  simp only [Kernel.release]
  split
  · rename_i hnone
    have hdone : ∀ p, s.process? id = some p → p.halted = true := by simp [hnone]
    exact ⟨h.orderly.shrink hdone hfewer hending, h.follows⟩
  · rename_i p hp
    split
    · rename_i hhalted
      have hdone : ∀ q, s.process? id = some q → q.halted = true := by
        intro q hq
        rw [hp] at hq
        exact Option.some.inj hq ▸ hhalted
      have hshrunk : Tracks fewer start (s, a) :=
        ⟨h.orderly.shrink hdone hfewer hending, h.follows⟩
      exact hshrunk.modify fun q _ => q.relabels_hang.quiet
    · exact h.step (h.orderly.halt hid hfewer hending)

theorem Tracks.unregister {s : System} {a : Arena} (h : Tracks ending start (s, a)) (id : Nat) :
    Tracks (insert id ending) start (s.unregister id, a) :=
  h.step ⟨h.orderly.unregister id, System.follows_unregister s id⟩

theorem preserves_halt (id : Nat) : Preserves (Tracks ∅ start) (halt id) := by
  refine .bind (preserves_requireRegistered id) fun _ => ?_
  refine Hoare.bind (Q := fun _ k => Tracks (insert id ∅) start k ∧ ¬ k.1.IsRegistered id) ?_
    fun _ => ?_
  · refine TenantM.hoare_modifySelf fun s a hk => ⟨hk.unregister id, fun hid => ?_⟩
    exact (System.isRegistered_unregister.1 hid).2 rfl
  · rintro k ⟨hk, hid⟩
    exact hk.release hid (Set.empty_subset _) subset_rfl

/-- Those that are found have left the registry. -/
theorem Tracks.detach {s : System} {a : Arena} (h : Tracks ending start (s, a)) (ids : List Nat) :
    Tracks ({j | j ∈ (Kernel.detach s ids).1} ∪ ending) start ((Kernel.detach s ids).2, a) := by
  induction ids with
  | nil => simpa [Kernel.detach] using h
  | cons id rest ih =>
    simp only [Kernel.detach]
    split
    · have hnext : Tracks (insert id ({j | j ∈ (Kernel.detach s rest).1} ∪ ending)) start
          (((Kernel.detach s rest).2.unregister id).modifyProcess id (·.hang), a) :=
        (ih.unregister id).modify fun p _ => p.relabels_hang.quiet
      have hset : insert id ({j | j ∈ (Kernel.detach s rest).1} ∪ ending) =
          {j | j ∈ id :: (Kernel.detach s rest).1} ∪ ending := by
        ext j
        simp [or_assoc]
      exact hset ▸ hnext
    · exact ih

def Ending.process : Ending → Nat
  | expand id | release id => id

/-- The processes that a sweep has to do with. -/
def concerned (pending : List Ending) : Set Nat :=
  {j | ∃ e ∈ pending, e.process = j}

theorem concerned_cons (e : Ending) (rest : List Ending) :
    concerned (e :: rest) = insert e.process (concerned rest) := by
  ext j
  simp [concerned, eq_comm]

theorem concerned_expand (found : List Nat) (rest : List Ending) :
    concerned (found.map .expand ++ rest) = {j | j ∈ found} ∪ concerned rest := by
  ext j
  simp [concerned, Ending.process, or_and_right, exists_or]

theorem concerned_singleton (e : Ending) : concerned [e] = {e.process} := by
  rw [concerned_cons]
  simp [concerned]

theorem mem_concerned_cons {e : Ending} {rest : List Ending} {j : Nat} :
    j ∈ concerned (e :: rest) ↔ j = e.process ∨ j ∈ concerned rest := by
  rw [concerned_cons, Set.mem_insert_iff]

theorem head_mem_concerned (e : Ending) (rest : List Ending) : e.process ∈ concerned (e :: rest) :=
  mem_concerned_cons.2 (.inl rfl)

/-- A process whose children are put on the list is still on it. -/
theorem mem_concerned_expanded {found : List Nat} {i : Nat} {rest : List Ending} {j : Nat} :
    j ∈ concerned (found.map .expand ++ .release i :: rest) ↔
      j ∈ found ∨ j ∈ concerned (.expand i :: rest) := by
  rw [concerned_expand, concerned_cons, concerned_cons]
  rfl

theorem map_process_expand (found : List Nat) (i : Nat) (rest : List Ending) :
    (found.map Ending.expand ++ .release i :: rest).map Ending.process =
      found ++ i :: rest.map Ending.process := by
  rw [List.map_append, List.map_map]
  congr 1
  exact List.map_id' found

/-- At the end of a sweep nothing is pending any more. -/
theorem Tracks.sweep {pending : List Ending} {k : Kernel}
    (h : Tracks (concerned pending) start k) : Tracks ∅ start (Kernel.sweep pending k) := by
  -- The set of those about to end is read off the list, so each case of the loop keeps it in step.
  fun_induction Kernel.sweep pending k with
  | case1 k => simpa [concerned] using h
  | case2 k id rest ih =>
    rw [concerned_cons] at h
    have hid : ¬ k.1.IsRegistered id := h.orderly.recorded.left id (Set.mem_insert id _)
    exact ih (h.release hid (Set.subset_insert _ _) subset_rfl)
  | case3 k id rest found ih =>
    have hfound := h.detach (k.1.childrenOf id)
    apply ih
    rw [concerned_cons] at hfound
    rw [concerned_expand, concerned_cons]
    exact hfound

theorem preserves_haltSubtree (id : Nat) : Preserves (Tracks ∅ start) (haltSubtree id) := by
  refine .bind (preserves_requireRegistered id) fun _ => ?_
  refine Hoare.bind (Q := fun _ => Tracks (concerned [.expand id]) start) ?_ fun _ => ?_
  · refine TenantM.hoare_modifySelf fun s a hk => ?_
    rw [concerned_singleton, ← insert_empty_eq]
    exact (hk.unregister id).modify fun p _ => p.relabels_hang.quiet
  · exact fun k hk => hk.sweep

/-- A release of a process that is not registered only hangs it, for it was halted before. -/
theorem Tracks.release_left {k : Kernel} (h : Tracks ∅ start k) (hid : ¬ k.1.IsRegistered id) :
    Tracks ∅ start (Kernel.release id k) :=
  h.release hid subset_rfl (Set.empty_subset _)

theorem Tracks.modifyWorker {s : System} {a : Arena} (h : Tracks ending start (s, a))
    {f : Worker → Worker} (hf : ∀ w, (f w).owned.Sublist w.owned) (index : Nat) :
    Tracks ending start (s.modifyWorker index f, a) :=
  h.step ⟨h.orderly.modifyWorker hf index, System.follows_of_eq rfl (Nat.le_refl _)⟩

/-- Whatever happens to the console, to the storage or to the sign that the kernel is alive. -/
theorem Tracks.congr {k k' : Kernel} (h : Tracks ending start k)
    (hworkers : k'.1.workers = k.1.workers) (hregistry : k'.1.registry = k.1.registry)
    (hprocesses : k'.1.processes = k.1.processes) (hcounter : k.1.nextId ≤ k'.1.nextId) :
    Tracks ending start k' :=
  h.step ⟨h.orderly.congr hworkers hregistry hprocesses hcounter,
    System.follows_of_eq hprocesses hcounter⟩

/-! ### Quanta -/

theorem Tracks.withArena {k : Kernel} (h : Tracks ending start k) (a : Arena) :
    Tracks ending start (k.1, a) :=
  ⟨h.orderly, h.follows⟩

theorem reached_serving {α : Type} (x : KernelM α) (k : Kernel) :
    reached (serving x k) = reached (x k) := by
  rw [serving, EStateM.adaptExcept]
  cases x k <;> rfl

theorem preserves_serving {α : Type} {P : Kernel → Prop} {x : KernelM α} (hx : Preserves P x) :
    Preserves P (serving x) :=
  hx.adaptExcept

/-- The console is asked, and nothing else happens, whether it panics or not. -/
theorem reached_print (origin : Nat) (text : String) (k : Kernel) :
    reached (print origin text k) =
      ({ k.1 with console := k.1.console.print origin text }, k.2) := by
  simp only [print]
  cases k.1.console.panicsAt origin text <;> rfl

theorem preserves_print (origin : Nat) (text : String) :
    Preserves (Tracks ending start) (print origin text) := by
  refine .of_reached fun k hk => ?_
  rw [reached_print]
  exact hk.congr rfl rfl rfl (Nat.le_refl _)

/-- The kernel that a running machine leads to, without the process that runs. -/
def kernelOf (m : Machine System) : Kernel :=
  (m.host, m.arena)

theorem preserves_onStack {α : Type} (x : StackM α) :
    Preserves (fun m => Tracks ending start (kernelOf m)) (Exec.onStack x) := by
  refine .of_reached fun m hm => ?_
  rw [Exec.reached_onStack]
  exact hm.withArena _

theorem preserves_onHeap {α : Type} (x : HeapM α) :
    Preserves (fun m => Tracks ending start (kernelOf m)) (Exec.onHeap x) := by
  refine .of_reached fun m hm => ?_
  rw [Exec.reached_onHeap]
  exact hm.withArena _

theorem preserves_onHost {α : Type} {x : HostM System α}
    (hx : Preserves (Tracks ending start) x) :
    Preserves (fun m => Tracks ending start (kernelOf m)) (Exec.onHost x) := by
  refine .of_reached fun m hm => ?_
  rw [Exec.reached_onHost]
  exact hx.reached hm

/-- A program under the kernel keeps the order, whatever its bytes are. -/
theorem keeps_tracks (origin : Nat) (image : Image) :
    (Runner.mk origin image host).Keeps fun m => Tracks ∅ start (kernelOf m) where
  cursor _ _ hm := hm
  push _ := preserves_onStack _
  pop := preserves_onStack _
  popFrame := preserves_onStack _
  malloc _ := preserves_onHeap _
  copyIn _ _ _ := preserves_onHeap _
  spawn priority name := preserves_onHost (preserves_serving (preserves_spawn origin priority name))
  bind target _ := by
    refine preserves_onHost (preserves_serving (.bind (preserves_requireRegistered target) ?_))
    exact fun _ => preserves_bindImage target _ true
  dispatch target := by
    refine preserves_onHost (preserves_serving (.bind (preserves_dispatch target) ?_))
    exact fun _ => .pure _
  print text := preserves_onHost (preserves_print origin text)

/-- A process that lost its context meanwhile does not get one back. -/
theorem Tracks.suspend {m : Machine System} (h : Tracks ending start (kernelOf m)) (id : Nat) :
    Tracks ending start (suspend id m) := by
  refine h.modify fun p _ => ⟨rfl, rfl, rfl, fun _ hbare => ⟨hbare.active, hbare.image, ?_⟩⟩
  simp [hbare.context]

theorem Tracks.settle {k : Kernel} (h : Tracks ∅ start k) (id : Nat) (quantum : Quantum) :
    Tracks ∅ start (settle id quantum k) := by
  have hhung : Tracks ∅ start (k.1.modifyProcess id (·.hang), k.2) :=
    h.modify fun p _ => p.relabels_hang.quiet
  cases quantum with
  | idle | yielded => exact h
  | finished => exact hhung
  | faulted fault => exact Upholds.attempt (preserves_haltSubtree id) hhung
  | halted recursive =>
    cases recursive with
    | false => exact Upholds.attempt (preserves_halt id) hhung
    | true => exact Upholds.attempt (preserves_haltSubtree id) hhung

theorem Tracks.runQuantum {k : Kernel} (h : Tracks ∅ start k) (id budget : Nat) (image : Image)
    (context : Context) : Tracks ∅ start (runQuantum id budget image context k).2 := by
  have hrun := (keeps_tracks id image).run budget (machineOf context image k) h
  -- A fault leaves the machine where it was raised, and counts like any other end.
  unfold Kernel.runQuantum
  simp only
  split
  · rename_i outcome m hres
    rw [hres] at hrun
    exact (hrun.suspend id).settle id _
  · rename_i fault m hres
    rw [hres] at hrun
    exact (hrun.suspend id).settle id (.faulted fault)

theorem Tracks.execute {k : Kernel} (h : Tracks ∅ start k) (id budget : Nat) :
    Tracks ∅ start (execute id budget k).2 := by
  obtain ⟨s, a⟩ := k
  have hticked : Tracks ∅ start (s.modifyProcess id (·.tick), a) :=
    h.modify fun p _ => p.relabels_tick.quiet
  simp only [Kernel.execute]
  split
  · exact h
  · split
    · split
      · exact hticked
      · exact hticked.runQuantum id budget _ _
    · exact h

theorem upholds_tracks (start : System) : Upholds (Tracks ∅ start) where
  relabel _ _ _ hk hf := hk.modify fun p _ => (hf p).quiet
  worker _ index _ hk hf := hk.modifyWorker hf index
  keepAlive _ _ hk := hk.congr rfl rfl rfl (Nat.le_refl _)
  generate := preserves_generate
  bindProgram := preserves_bindProgram
  dispatch := preserves_dispatch
  execute id budget _ hk := hk.execute id budget
  halt := preserves_halt
  haltSubtree := preserves_haltSubtree
  release _ _ hk hid := hk.release_left hid

end BytecodeKernel.Kernel
