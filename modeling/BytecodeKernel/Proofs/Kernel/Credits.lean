import BytecodeKernel.Proofs.Kernel.Leases
import BytecodeKernel.Proofs.Kernel.Teardown
import BytecodeKernel.Proofs.Machine.Transcripts
/-!
What a program does to other processes it has asked for. The transcript of its quantum has the
request for every program that a process got meanwhile, and for every process that changed its
worker.
-/

namespace BytecodeKernel.Kernel

/-- From one system to a later one, no program and no owner has changed but by a request that was
granted. -/
structure Credited (image : Image) (s t : System) (log : List Exchange) : Prop where
  program : ∀ j p q, s.process? j = some p → t.process? j = some q → q.image = p.image ∨
    p.image = none ∧ ∃ entry, q.image = some (image.enteredAt entry) ∧
      ⟨.bind j entry, .ok 0⟩ ∈ log
  owner : ∀ j, t.owner? j = s.owner? j ∨ ⟨.dispatch j, .ok 0⟩ ∈ log

variable {id : Nat} {image : Image} {held : List (Nat × Nat)} {s t u : System} {k : Kernel}
  {log more : List Exchange}

theorem owner?_congr (h : t.workers = s.workers) (j : Nat) : t.owner? j = s.owner? j := by
  rw [System.owner?, System.owner?, h]

/-- Nothing has changed. -/
theorem credited_of_eq (hprocesses : t.processes = s.processes) (hworkers : t.workers = s.workers)
    (log : List Exchange) : Credited image s t log where
  program j p q hp hq := by
    rw [System.process?_congr hprocesses] at hq
    obtain rfl := Option.some.inj (hp.symm.trans hq)
    exact .inl rfl
  owner j := .inl (owner?_congr hworkers j)

theorem Credited.trans (hst : Credited image s t log) (hleaves : s.Leaves id t)
    (htu : Credited image t u more) : Credited image s u (log ++ more) where
  program j p r hp hr := by
    obtain ⟨q, hq, -⟩ := hleaves.stays j p hp
    rcases htu.program j q r hq hr with hsame | ⟨hnone, entry, himage, hmem⟩
    · rw [hsame]
      refine (hst.program j p q hp hq).imp_right fun ⟨hnone, entry, himage, hmem⟩ => ?_
      exact ⟨hnone, entry, himage, List.mem_append_left _ hmem⟩
    · have hunbound : p.image = none := by
        by_contra hsome
        obtain ⟨q', hq', hstays, -⟩ := hleaves.stays j p hp
        obtain rfl := Option.some.inj (hq.symm.trans hq')
        exact hsome (hstays.image hsome ▸ hnone)
      exact .inr ⟨hunbound, entry, himage, List.mem_append_right _ hmem⟩
  owner j := by
    rcases htu.owner j with hsame | hmem
    · rw [hsame]
      exact (hst.owner j).imp_right fun hmem => List.mem_append_left _ hmem
    · exact .inr (List.mem_append_right _ hmem)

/-! ### Each service -/

/-- An assignment moves one process. -/
theorem owner?_assign {s : System} {index target j : Nat} (hne : j ≠ target) :
    ({ s with workers := assignTo index target s.workers } : System).owner? j = s.owner? j := by
  rw [System.owner?, System.owner?]
  refine findIdx?_eq_of_map (List.ext_getElem (by simp) fun i hi hi' => ?_)
  simp only [assignTo, List.getElem_map, List.getElem_mapIdx]
  rw [decide_eq_decide, System.mem_owned_moved]
  simp [hne]

theorem workers_entered (parent : Option Nat) (context : Context) :
    (s.entered parent context).workers = s.workers := by
  simp only [System.entered, System.enter]
  cases parent <;> rfl

theorem credited_spawn (hfresh : k.1.process? k.1.nextId = none) (priority : Nat)
    (name : List UInt8) (log : List Exchange) :
    Credited image k.1 (reached (host.spawn id priority name k)).1 log := by
  obtain ⟨s, a⟩ := k
  rcases host_spawn_cases id priority name s a with ⟨context, b, -, heq⟩ | ⟨e, heq⟩ | ⟨e, heq⟩
  · rw [heq]
    refine ⟨fun j p q hp hq => .inl ?_,
      fun j => .inl (owner?_congr (workers_entered (some id) context) j)⟩
    have hne : s.nextId ≠ j := by
      rintro rfl
      exact Option.some_ne_none p (hp.symm.trans hfresh)
    change ((s.entered (some id) context).modifyProcess s.nextId _).process? j = some q at hq
    rw [System.process?_modifyProcess, if_neg hne] at hq
    obtain ⟨r, hr, rfl | ⟨-, rfl⟩⟩ :=
      System.exists_process?_entered hp hne.symm (some id) context
    · rw [Option.some.inj (hq.symm.trans hr)]
    · rw [Option.some.inj (hq.symm.trans hr), Process.image_addChild]
  · rw [heq]
    exact credited_of_eq rfl rfl log
  · rw [heq]
    exact credited_of_eq (s := s) (t := s.counted) rfl rfl log

theorem credited_bind (target entry : Nat) :
    Credited image k.1 (reached (host.bind target (image.enteredAt entry) k)).1
      [⟨.bind target entry, Host.answer (fun _ => 0)
        (host.bind target (image.enteredAt entry) k)⟩] := by
  rcases host_bind_cases target (image.enteredAt entry) k with ⟨hbindable, heq⟩ | ⟨e, heq⟩
  · rw [heq]
    refine ⟨fun j p q hp hq => ?_, fun j => .inl rfl⟩
    rcases System.process?_modify_eq_some hq with ⟨rfl, p', hp', rfl⟩ | ⟨-, hq⟩
    · obtain rfl := Option.some.inj (hp.symm.trans hp')
      obtain ⟨p', hp', -, hnone⟩ := hbindable
      obtain rfl := Option.some.inj (hp.symm.trans hp')
      exact .inr ⟨hnone, entry, rfl, List.mem_singleton_self _⟩
    · obtain rfl := Option.some.inj (hp.symm.trans hq)
      exact .inl rfl
  · rw [heq]
    exact credited_of_eq rfl rfl _

theorem credited_dispatch (target : Nat) :
    Credited image k.1 (reached (host.dispatch target k)).1
      [⟨.dispatch target, Host.answer (fun _ => 0) (host.dispatch target k)⟩] := by
  rcases host_dispatch_cases target k with ⟨index, -, heq⟩ | ⟨e, heq⟩
  · rw [heq]
    refine ⟨fun j p q hp hq => ?_, fun j => ?_⟩
    · obtain rfl := Option.some.inj (hp.symm.trans hq)
      exact .inl rfl
    · by_cases hj : j = target
      · subst hj
        exact .inr (List.mem_singleton_self _)
      · exact .inl (owner?_assign hj)
  · rw [heq]
    exact credited_of_eq rfl rfl _

theorem credited_print (origin : Nat) (text : String) (log : List Exchange) :
    Credited image k.1 (reached (host.print origin text k)).1 log := by
  rw [reached_host_print]
  apply credited_of_eq <;> rfl

/-! ### Quanta -/

/-- The requests of a process when it runs. -/
def runLog (id budget : Nat) (image : Image) (context : Context) (k : Kernel) : List Exchange :=
  Runner.transcript ⟨id, image, host⟩ budget (machineOf context image k)

/-- The requests of a quantum, none if the process is idle. -/
def quantumLog (id budget : Nat) (k : Kernel) : List Exchange :=
  match k.1.process? id with
  | none => []
  | some p =>
    match p.active, p.image, p.context with
    | true, some image, some context => runLog id budget image context (ticked id k)
    | _, _, _ => []

theorem Ready.quantumLog {p : Process} {context : Context} (h : Ready k id p image context)
    (budget : Nat) :
    Kernel.quantumLog id budget k = runLog id budget image context (ticked id k) := by
  simp only [Kernel.quantumLog, h.record, h.active, h.image, h.context]

/-- Whatever the program does, its requests are credited. -/
theorem keeps_credited (id : Nat) (image : Image) (held : List (Nat × Nat)) (start : Kernel) :
    (Runner.mk id image host).logged.Keeps fun m => Running id image held start m.forget ∧
      Credited image start.1 m.host.1 m.host.2 := by
  refine (keeps_running id image held start).logged (C := fun g => Credited image start.1 g.1 g.2)
    ?_ ?_ ?_ ?_
  · intro priority name m hm log hlog
    refine hlog.trans hm.leaves (credited_spawn (k := (m.host, m.arena)) ?_ priority name _)
    exact hm.housed.furnished.fresh _ (Nat.le_refl _)
  · exact fun target entry m hm log hlog =>
      hlog.trans hm.leaves (credited_bind (k := (m.host, m.arena)) target entry)
  · exact fun target m hm log hlog =>
      hlog.trans hm.leaves (credited_dispatch (k := (m.host, m.arena)) target)
  · exact fun text m hm log hlog =>
      hlog.trans hm.leaves (credited_print (k := (m.host, m.arena)) id text _)

theorem Housed.credited_runEnd (h : Housed none held k) {p : Process} {context : Context}
    (hp : k.1.process? id = some p) (himage : p.image = some image)
    (hcontext : p.context = some context) (budget : Nat) :
    Credited image k.1 (reached (runEnd id budget image context k)).host
      (runLog id budget image context k) := by
  have hbegin : Running id image held k (machineOf context image k).recording.forget ∧
      Credited image k.1 k.1 [] := ⟨h.running hp himage hcontext, credited_of_eq rfl rfl []⟩
  have hend := ((keeps_credited id image held k).run budget).reached hbegin
  have hforget := Runner.forget_reached ⟨id, image, host⟩ budget (machineOf context image k)
  have hhost : (reached (runEnd id budget image context k)).host =
      (reached ((Runner.mk id image host).logged.run budget
        (machineOf context image k).recording)).host.1 := by
    rw [runEnd, ← hforget]
    rfl
  rw [hhost]
  exact hend.2

end BytecodeKernel.Kernel
