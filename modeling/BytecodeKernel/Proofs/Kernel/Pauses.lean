import BytecodeKernel.Proofs.Kernel.Containment
import BytecodeKernel.Proofs.Kernel.Stints
/-!
What becomes of a process in a pause, that is, while it does not run itself. Others may hang it,
wake it, give it a program if it has none, and halt it. Nobody revives it, nobody gives it another
program, and nobody moves it to another place in the one it has. All operations but the quanta of
the process itself are such pauses, and passes are made of operations on single processes.
-/

namespace BytecodeKernel

namespace System

def isHalted (s : System) (id : Nat) : Bool :=
  (s.process? id).any (·.halted)

/-- The program of a process. -/
def image? (s : System) (id : Nat) : Option Image :=
  (s.process? id).bind (·.image)

def context? (s : System) (id : Nat) : Option Context :=
  (s.process? id).bind (·.context)

/-- Where the program of a process goes on, once it has begun. -/
def cursor? (s : System) (id : Nat) : Option Nat :=
  (s.context? id).bind (·.cursor)

/-- A process that was halted stays so, and one that is not keeps the program it had. -/
structure Lives (id : Nat) (s t : System) : Prop where
  halted : s.isHalted id → t.isHalted id
  image : t.isHalted id = false → ∀ image, s.image? id = some image → t.image? id = some image

/-- And its context has not changed, or it is new and its program has not begun. -/
structure Pauses (id : Nat) (s t : System) : Prop extends Lives id s t where
  context : t.isHalted id = false → ∀ c, s.context? id = some c → t.context? id = some c
  fresh : t.isHalted id = false → s.context? id = none → t.cursor? id = none

end System

/-- What may become of the record of a process. -/
structure Process.Pauses (p q : Process) : Prop where
  halted : p.halted = true → q.halted = true
  image : q.halted = false → ∀ image, p.image = some image → q.image = some image
  context : q.halted = false → q.context = p.context

namespace Process

variable {p q : Process}

theorem Relabels.pauses (h : p.Relabels q) : p.Pauses q :=
  ⟨h.halted.trans, fun _ _ himage => h.image.trans himage, fun _ => h.context⟩

theorem pauses_halt (p : Process) : p.Pauses p.halt :=
  ⟨fun _ => rfl, nofun, nofun⟩

theorem pauses_addChild (p : Process) (child : Nat) : p.Pauses (p.addChild child) :=
  ⟨(p.halted_addChild child).trans, fun _ _ himage => (p.image_addChild child).trans himage,
    fun _ => p.context_addChild child⟩

theorem pauses_bound (h : p.image = none) (image : Image) :
    p.Pauses { p with image := some image } :=
  ⟨fun halted => halted, fun _ _ himage => absurd (h.symm.trans himage) nofun, fun _ => rfl⟩

end Process

namespace System

variable {id j : Nat} {s t u : System} {p q : Process}

theorem Lives.alive (h : s.Lives id t) (ht : t.isHalted id = false) : s.isHalted id = false :=
  Bool.eq_false_iff.2 fun hs => by simp [h.halted hs] at ht

theorem Lives.trans (hst : s.Lives id t) (htu : t.Lives id u) : s.Lives id u where
  halted h := htu.halted (hst.halted h)
  image hu image himage := htu.image hu image (hst.image (htu.alive hu) image himage)

/-- The place in the program is the same, whether it has begun or not. -/
theorem Pauses.cursor (h : s.Pauses id t) (ht : t.isHalted id = false) :
    t.cursor? id = s.cursor? id := by
  cases hs : s.context? id with
  | none => rw [h.fresh ht hs, cursor?, hs, Option.bind_none]
  | some c => rw [cursor?, h.context ht c hs, cursor?, hs]

theorem Pauses.trans (hst : s.Pauses id t) (htu : t.Pauses id u) : s.Pauses id u where
  toLives := hst.toLives.trans htu.toLives
  context hu c hc := htu.context hu c (hst.context (htu.alive hu) c hc)
  fresh hu hc := (htu.cursor hu).trans (hst.fresh (htu.alive hu) hc)

/-! ### Records -/

theorem isHalted_of_record (hp : s.process? id = some p) : s.isHalted id = p.halted := by
  rw [isHalted, hp, Option.any_some]

theorem image?_of_record (hp : s.process? id = some p) : s.image? id = p.image := by
  rw [image?, hp, Option.bind_some]

theorem context?_of_record (hp : s.process? id = some p) : s.context? id = p.context := by
  rw [context?, hp, Option.bind_some]

theorem pauses_of_eq (h : t.process? id = s.process? id) : s.Pauses id t where
  halted := by rw [isHalted, isHalted, h]; exact fun hs => hs
  image _ image himage := by rwa [image?, h]
  context _ c hc := by rwa [context?, h]
  fresh _ hc := by rw [cursor?, context?, h, ← context?, hc, Option.bind_none]

theorem Pauses.refl (s : System) : s.Pauses id s :=
  pauses_of_eq rfl

theorem pauses_of_records (hp : s.process? id = some p) (hq : t.process? id = some q)
    (h : p.Pauses q) : s.Pauses id t where
  halted := by
    rw [isHalted_of_record hp, isHalted_of_record hq]
    exact h.halted
  image ht image himage := by
    rw [isHalted_of_record hq] at ht
    rw [image?_of_record hp] at himage
    rw [image?_of_record hq]
    exact h.image ht image himage
  context ht c hc := by
    rw [isHalted_of_record hq] at ht
    rw [context?_of_record hp] at hc
    rw [context?_of_record hq]
    exact (h.context ht).trans hc
  fresh ht hc := by
    rw [isHalted_of_record hq] at ht
    rw [context?_of_record hp] at hc
    rw [cursor?, context?_of_record hq, h.context ht, hc, Option.bind_none]

theorem pauses_modifyProcess {f : Process → Process}
    (hf : ∀ p, s.process? j = some p → p.Pauses (f p)) : s.Pauses id (s.modifyProcess j f) := by
  by_cases hj : j = id
  · subst hj
    cases hp : s.process? j with
    | none =>
      refine pauses_of_eq ?_
      rw [process?_modifyProcess, if_pos rfl, hp]
      rfl
    | some p => exact pauses_of_records hp (process?_modify_self hp f) (hf p hp)
  · refine pauses_of_eq ?_
    rw [process?_modifyProcess, if_neg hj]

theorem pauses_relabel {f : Process → Process} (hf : ∀ p : Process, p.Relabels (f p)) (j : Nat) :
    s.Pauses id (s.modifyProcess j f) :=
  pauses_modifyProcess fun p _ => (hf p).pauses

theorem pauses_unregister (s : System) (j : Nat) : s.Pauses id (s.unregister j) :=
  pauses_of_eq rfl

/-- A new process has not begun, and its parent has one child more. -/
theorem pauses_entered (hfresh : s.process? s.nextId = none) {context : Context}
    (hcursor : context.cursor = none) (parent : Option Nat) :
    s.Pauses id (s.entered parent context) := by
  have hentered := process?_entered s parent context id
  by_cases hid : id = s.nextId
  · rw [if_pos hid] at hentered
    rw [← hid] at hfresh
    refine ⟨⟨fun hs => ?_, fun _ image himage => ?_⟩, fun _ c hc => ?_, fun _ _ => ?_⟩
    · simp [isHalted, hfresh] at hs
    · simp [image?, hfresh] at himage
    · simp [context?, hfresh] at hc
    · rw [cursor?, context?_of_record hentered]
      exact hcursor
  · rw [if_neg hid] at hentered
    split at hentered
    · cases hp : s.process? id with
      | none => exact pauses_of_eq (by rw [hentered, hp]; rfl)
      | some p =>
        rw [hp] at hentered
        exact pauses_of_records hp hentered (p.pauses_addChild s.nextId)
    · exact pauses_of_eq hentered

end System

namespace Kernel

variable {id j : Nat} {k : Kernel}

/-! ### Ends -/

theorem pauses_release (j : Nat) (k : Kernel) : k.1.Pauses id (release j k).1 := by
  obtain ⟨s, a⟩ := k
  simp only [release]
  split
  · exact .refl s
  · split
    · exact System.pauses_relabel Process.relabels_hang j
    · exact System.pauses_modifyProcess fun p _ => p.pauses_halt

theorem pauses_uprooted (s : System) (j : Nat) :
    s.Pauses id ((s.unregister j).modifyProcess j (·.hang)) :=
  (System.pauses_unregister s j).trans (System.pauses_relabel Process.relabels_hang j)

theorem pauses_detach (s : System) (ids : List Nat) : s.Pauses id (detach s ids).2 := by
  induction ids with
  | nil => exact .refl s
  | cons j rest ih =>
    simp only [detach]
    split
    · exact ih.trans (pauses_uprooted _ j)
    · exact ih

theorem pauses_sweep (pending : List Ending) (k : Kernel) : k.1.Pauses id (sweep pending k).1 := by
  fun_induction sweep pending k with
  | case1 k => exact .refl k.1
  | case2 k j rest ih => exact (pauses_release j k).trans ih
  | case3 k j rest found ih => exact (pauses_detach k.1 (k.1.childrenOf j)).trans ih

theorem pauses_halt (j : Nat) (k : Kernel) : k.1.Pauses id (reached (halt j k)).1 := by
  rw [halt_eq]
  split
  · exact (System.pauses_unregister k.1 j).trans (pauses_release j (k.1.unregister j, k.2))
  · exact .refl k.1

theorem pauses_haltSubtree (j : Nat) (k : Kernel) :
    k.1.Pauses id (reached (haltSubtree j k)).1 := by
  rw [haltSubtree_eq]
  split
  · exact (pauses_uprooted k.1 j).trans (pauses_sweep _ (_, k.2))
  · exact .refl k.1

theorem ends_pauses (id : Nat) (s : System) : Ends fun k => s.Pauses id k.1 where
  relabel _ j _ h hf := h.trans (System.pauses_relabel hf j)
  worker _ _ _ h _ := h.trans (System.pauses_of_eq rfl)
  keepAlive _ _ h := h.trans (System.pauses_of_eq rfl)
  halt j := .of_reached fun k h => h.trans (pauses_halt j k)
  haltSubtree j := .of_reached fun k h => h.trans (pauses_haltSubtree j k)
  release k j h _ := h.trans (pauses_release j k)

theorem pauses_settle (j : Nat) (quantum : Quantum) (k : Kernel) :
    k.1.Pauses id (settle j quantum k).1 := by
  have hhung : k.1.Pauses id (k.1.modifyProcess j (·.hang)) :=
    System.pauses_relabel Process.relabels_hang j
  cases quantum with
  | idle | yielded => exact .refl k.1
  | finished => exact hhung
  | faulted fault => exact Upholds.attempt ((ends_pauses id k.1).haltSubtree j) hhung
  | halted recursive =>
    cases recursive with
    | false => exact Upholds.attempt ((ends_pauses id k.1).halt j) hhung
    | true => exact Upholds.attempt ((ends_pauses id k.1).haltSubtree j) hhung

/-! ### Requests -/

theorem cursor_of_create {heapBytes stackBytes : Nat} {a b : Arena} {context : Context}
    (h : Context.create heapBytes stackBytes a = .ok (context, b)) : context.cursor = none := by
  obtain ⟨⟨heap, a'⟩, -, hrest⟩ := ok_of_bind h
  obtain ⟨⟨stack, b'⟩, -, hpair⟩ := ok_of_bind hrest
  cases hpair
  rfl

theorem pauses_generateUnder (hs : k.1.Orderly ∅) (parent : Option Nat) :
    k.1.Pauses id (reached (generateUnder parent k)).1 := by
  obtain ⟨s, a⟩ := k
  rw [generateUnder_eq]
  split
  · exact .refl s
  · split
    · rename_i context b hcreate
      exact System.pauses_entered hs.related.process?_nextId (cursor_of_create hcreate) parent
    · exact System.pauses_of_eq (t := s.counted) rfl

theorem pauses_generate (hs : k.1.Orderly ∅) (parent : Option Nat) :
    k.1.Pauses id (reached (generate parent k)).1 := by
  cases parent with
  | none => exact pauses_generateUnder hs none
  | some parent =>
    rw [generate_some_eq]
    split
    · exact pauses_generateUnder hs (some parent)
    · exact .refl k.1

theorem pauses_bound {image : Image} (h : Bindable k.1 j) : k.1.Pauses id (bound k.1 j image) := by
  obtain ⟨p, hp, -, hnone⟩ := h
  refine System.pauses_modifyProcess fun q hq => ?_
  obtain rfl : p = q := Option.some.inj (hp.symm.trans hq)
  exact p.pauses_bound hnone image

theorem pauses_bindImage (j : Nat) (image : Image) (kept : Bool) (k : Kernel) :
    k.1.Pauses id (reached (bindImage j image kept k)).1 := by
  rcases bindImage_cases j image kept k with ⟨hbindable, heq⟩ | ⟨e, heq⟩
  · rw [heq]
    exact pauses_bound hbindable
  · rw [heq]
    exact (system_dropHandle image kept k).symm ▸ .refl k.1

theorem pauses_bindProgram (j : Nat) (bytes : List UInt8) (k : Kernel) :
    k.1.Pauses id (reached (bindProgram j bytes k)).1 := by
  rcases bindProgram_cases j bytes k with ⟨image, a, hbindable, -, heq⟩ | ⟨e, heq⟩
  · rw [heq]
    exact pauses_bound hbindable
  · rw [heq]
    exact .refl k.1

theorem pauses_dispatch (j : Nat) (k : Kernel) : k.1.Pauses id (reached (dispatch j k)).1 := by
  rcases dispatch_cases j k with ⟨index, -, heq⟩ | ⟨e, heq⟩
  · rw [heq]
    exact System.pauses_of_eq rfl
  · rw [heq]
    exact .refl k.1

/-! ### Services -/

theorem pauses_spawn (hs : k.1.Orderly ∅) (parent priority : Nat) (name : List UInt8) :
    k.1.Pauses id (reached (host.spawn parent priority name k)).1 := by
  obtain ⟨s, a⟩ := k
  rcases host_spawn_cases parent priority name s a with
    ⟨context, b, hcreate, heq⟩ | ⟨e, heq⟩ | ⟨e, heq⟩
  · rw [heq]
    have hentered : s.Pauses id (s.entered (some parent) context) :=
      System.pauses_entered hs.related.process?_nextId (cursor_of_create hcreate) (some parent)
    exact hentered.trans (System.pauses_relabel (fun p => p.relabels_rename priority name) _)
  · rw [heq]
    exact .refl s
  · rw [heq]
    exact System.pauses_of_eq (t := s.counted) rfl

theorem pauses_bind (target : Nat) (image : Image) (k : Kernel) :
    k.1.Pauses id (reached (host.bind target image k)).1 := by
  rcases host_bind_cases target image k with ⟨hbindable, heq⟩ | ⟨e, heq⟩
  · rw [heq]
    exact pauses_bound hbindable
  · rw [heq]
    exact .refl k.1

theorem pauses_host_dispatch (target : Nat) (k : Kernel) :
    k.1.Pauses id (reached (host.dispatch target k)).1 := by
  rcases host_dispatch_cases target k with ⟨index, -, heq⟩ | ⟨e, heq⟩
  · rw [heq]
    exact System.pauses_of_eq rfl
  · rw [heq]
    exact .refl k.1

theorem pauses_print (origin : Nat) (text : String) (k : Kernel) :
    k.1.Pauses id (reached (host.print origin text k)).1 := by
  rw [reached_host_print]
  exact System.pauses_of_eq rfl

/-! ### Runs -/

/-- What a program does to the record of a process, also to that of its own. -/
theorem keeps_pauses (id j : Nat) (image : Image) (start : System) :
    (Runner.mk j image host).Keeps fun m => Tracks ∅ start (kernelOf m) ∧
      start.Pauses id m.host := by
  have htracks : (Runner.mk j image host).Keeps fun m => Tracks ∅ start (kernelOf m) :=
    keeps_tracks j image
  have hstack {α : Type} (x : StackM α) : Preserves (fun m => Tracks ∅ start (kernelOf m) ∧
      start.Pauses id m.host) (Exec.onStack x) := by
    refine .of_reached fun m hm => ⟨(preserves_onStack x).reached hm.1, ?_⟩
    rw [Exec.reached_onStack]
    exact hm.2
  have hheap {α : Type} (x : HeapM α) : Preserves (fun m => Tracks ∅ start (kernelOf m) ∧
      start.Pauses id m.host) (Exec.onHeap x) := by
    refine .of_reached fun m hm => ⟨(preserves_onHeap x).reached hm.1, ?_⟩
    rw [Exec.reached_onHeap]
    exact hm.2
  refine ⟨fun m cursor hm => hm, fun v => hstack _, hstack _, hstack _, fun size => hheap _,
    fun dst src length => hheap _, fun priority name => ?_, fun target entry => ?_,
    fun target => ?_, fun text => ?_⟩
  · refine .of_reached fun m hm => ⟨(htracks.spawn priority name).reached hm.1, ?_⟩
    rw [Exec.reached_onHost]
    exact hm.2.trans (pauses_spawn (k := (m.host, m.arena)) hm.1.orderly j priority name)
  · refine .of_reached fun m hm => ⟨(htracks.bind target entry).reached hm.1, ?_⟩
    rw [Exec.reached_onHost]
    exact hm.2.trans (pauses_bind target _ (m.host, m.arena))
  · refine .of_reached fun m hm => ⟨(htracks.dispatch target).reached hm.1, ?_⟩
    rw [Exec.reached_onHost]
    exact hm.2.trans (pauses_host_dispatch target (m.host, m.arena))
  · refine .of_reached fun m hm => ⟨(htracks.print text).reached hm.1, ?_⟩
    rw [Exec.reached_onHost]
    exact hm.2.trans (pauses_print j text (m.host, m.arena))

theorem pauses_runEnd (hs : k.1.Orderly ∅) (j budget : Nat) (image : Image) (context : Context) :
    k.1.Pauses id (reached (runEnd j budget image context k)).host := by
  have hbegin : Tracks ∅ k.1 (kernelOf (machineOf context image k)) ∧ k.1.Pauses id k.1 :=
    ⟨⟨hs, .refl _⟩, .refl _⟩
  exact (((keeps_pauses id j image k.1).run budget).reached hbegin).2

theorem pauses_ticked (j : Nat) (k : Kernel) : k.1.Pauses id (ticked j k).1 :=
  System.pauses_relabel Process.relabels_tick j

/-- What is ready to run, or else the process at most grows older. -/
theorem ready_or_ticked (id budget : Nat) (k : Kernel) :
    (∃ p image context, Ready k id p image context) ∨
      (execute id budget k = (.idle, k) ∨ execute id budget k = (.idle, ticked id k)) := by
  obtain ⟨s, a⟩ := k
  cases hp : s.process? id with
  | none => exact .inr (.inl (by simp only [execute, hp]))
  | some p =>
    cases hactive : p.active with
    | false => exact .inr (.inl (by simp only [execute, hp, hactive]))
    | true =>
      cases himage : p.image with
      | none => exact .inr (.inl (by simp only [execute, hp, hactive, himage]))
      | some image =>
        cases hcontext : p.context with
        | none => exact .inr (.inr (by simp only [execute, hp, hactive, himage, hcontext]; rfl))
        | some context => exact .inl ⟨p, image, context, hp, hactive, himage, hcontext⟩

/-- In the quantum of another process. -/
theorem pauses_execute (hs : k.1.Orderly ∅) (hne : j ≠ id) (budget : Nat) :
    k.1.Pauses id (execute j budget k).2.1 := by
  rcases ready_or_ticked j budget k with ⟨p, image, context, hready⟩ | heq | heq
  · rw [hready.execute, runQuantum_eq]
    have hrun : (ticked j k).1.Pauses id
        (reached (runEnd j budget image context (ticked j k))).host :=
      pauses_runEnd (orderly_ticked hs j) j budget image context
    have hsuspended := System.pauses_of_eq (process?_suspend hne.symm
      (m := reached (runEnd j budget image context (ticked j k))))
    exact (((pauses_ticked j k).trans hrun).trans hsuspended).trans (pauses_settle j _ _)
  · rw [heq]
    exact .refl k.1
  · rw [heq]
    exact pauses_ticked j k

end Kernel

end BytecodeKernel
