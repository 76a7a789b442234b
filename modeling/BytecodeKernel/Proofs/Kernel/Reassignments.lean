import BytecodeKernel.Proofs.Kernel.Stints
/-!
What the scheduler weighs. Nothing that a program asks for and nothing that is done about its end
changes the rank of a process that was there before, or what a worker hands out; and a worker gets a
process only on request. So what a quantum changes for the scheduler is the age of the process that
ran, and the owners of those that were dispatched meanwhile.
-/

namespace BytecodeKernel

/-- From a worker to what it is later: it hands out as much, and what it got was dispatched by a
request that was granted. -/
structure Worker.Reassigns (log : List Exchange) (v w : Worker) : Prop where
  priority : w.priority = v.priority
  owned : ∀ j ∈ w.owned, j ∈ v.owned ∨ ⟨.dispatch j, .ok 0⟩ ∈ log

/-- From one system to a later one, records look the same in some view of them, and workers have got
nothing but on request. -/
structure System.Reassigns {β : Type} (view : Process → β) (log : List Exchange) (s t : System) :
    Prop where
  records : ∀ j p, s.process? j = some p → ∃ q, t.process? j = some q ∧ view q = view p
  workers : ∀ (i : Nat) (w : Worker), t.workers[i]? = some w →
    ∃ v : Worker, s.workers[i]? = some v ∧ v.Reassigns log w

namespace Worker

variable {u v w : Worker} {log more : List Exchange}

theorem Reassigns.refl (log : List Exchange) (w : Worker) : w.Reassigns log w :=
  ⟨rfl, fun _ hj => .inl hj⟩

theorem Reassigns.trans (h : u.Reassigns log v) (h' : v.Reassigns more w) :
    u.Reassigns (log ++ more) w where
  priority := h'.priority.trans h.priority
  owned j hj := by
    rcases h'.owned j hj with hj | hmem
    · exact (h.owned j hj).imp_right fun hmem => List.mem_append_left _ hmem
    · exact .inr (List.mem_append_right _ hmem)

end Worker

namespace System

variable {β : Type} {view : Process → β} {s t u : System} {id : Nat} {log more : List Exchange}

/-- Records and workers are the same. -/
theorem reassigns_of_eq (hprocesses : t.processes = s.processes) (hworkers : t.workers = s.workers)
    (log : List Exchange) : s.Reassigns view log t where
  records j p hp := ⟨p, by rwa [process?_congr hprocesses], rfl⟩
  workers _ w hw := ⟨w, hworkers ▸ hw, .refl log w⟩

theorem Reassigns.refl (log : List Exchange) (s : System) : s.Reassigns view log s :=
  reassigns_of_eq rfl rfl log

theorem Reassigns.trans (h : s.Reassigns view log t) (h' : t.Reassigns view more u) :
    s.Reassigns view (log ++ more) u where
  records j p hp := by
    obtain ⟨q, hq, hview⟩ := h.records j p hp
    obtain ⟨r, hr, hview'⟩ := h'.records j q hq
    exact ⟨r, hr, hview'.trans hview⟩
  workers i w hw := by
    obtain ⟨v, hv, hreassigns'⟩ := h'.workers i w hw
    obtain ⟨u, hu, hreassigns⟩ := h.workers i v hv
    exact ⟨u, hu, hreassigns.trans hreassigns'⟩

/-- Who has the same rank has the same priority. -/
theorem Reassigns.priority (h : s.Reassigns Process.rank log t) :
    s.Reassigns Process.priority log t where
  records j p hp := by
    obtain ⟨q, hq, hrank⟩ := h.records j p hp
    exact ⟨q, hq, congrArg Rank.priority hrank⟩
  workers := h.workers

/-- A change to a record that is not seen. -/
theorem reassigns_modify {f : Process → Process} (hf : ∀ p : Process, view (f p) = view p)
    (id : Nat) (log : List Exchange) : s.Reassigns view log (s.modifyProcess id f) where
  records j p hp := by
    refine ⟨_, process?_modify_of_eq_some hp, ?_⟩
    split
    · exact hf p
    · rfl
  workers _ w hw := ⟨w, hw, .refl log w⟩

theorem reassigns_unregister (id : Nat) (log : List Exchange) :
    s.Reassigns view log (s.unregister id) where
  records _ p hp := ⟨p, hp, rfl⟩
  workers i w hw := by
    rw [unregister, List.getElem?_map, Option.map_eq_some_iff] at hw
    obtain ⟨v, hv, rfl⟩ := hw
    exact ⟨v, hv, rfl, fun j hj => .inl ((v.mem_owned_remove id j).1 hj).1⟩

end System

namespace Kernel

variable {id : Nat} {image : Image} {held : List (Nat × Nat)} {k : Kernel} {log : List Exchange}

/-! ### Ends -/

theorem reassigns_release (id : Nat) (k : Kernel) :
    k.1.Reassigns Process.rank [] (release id k).1 := by
  obtain ⟨s, a⟩ := k
  simp only [release]
  split
  · exact .refl [] s
  · split
    · exact System.reassigns_modify (f := (·.hang)) (fun _ => rfl) id []
    · exact System.reassigns_modify (f := (·.halt)) (fun _ => rfl) id []

theorem reassigns_detach (s : System) (ids : List Nat) :
    s.Reassigns Process.rank [] (detach s ids).2 := by
  induction ids with
  | nil => exact .refl [] s
  | cons id rest ih =>
    simp only [detach]
    split
    · have hleft := ih.trans (System.reassigns_unregister id [])
      exact hleft.trans (System.reassigns_modify (f := (·.hang)) (fun _ => rfl) id [])
    · exact ih

theorem reassigns_sweep (pending : List Ending) (k : Kernel) :
    k.1.Reassigns Process.rank [] (sweep pending k).1 := by
  fun_induction sweep pending k with
  | case1 k => exact .refl [] k.1
  | case2 k id rest ih => exact (reassigns_release id k).trans ih
  | case3 k id rest found ih =>
    have hdetached := reassigns_detach k.1 (k.1.childrenOf id)
    exact hdetached.trans ih

theorem reassigns_halt (id : Nat) (k : Kernel) :
    k.1.Reassigns Process.rank [] (reached (halt id k)).1 := by
  rw [halt_eq]
  split
  · exact (System.reassigns_unregister id []).trans (reassigns_release id (k.1.unregister id, k.2))
  · exact .refl [] k.1

theorem reassigns_haltSubtree (id : Nat) (k : Kernel) :
    k.1.Reassigns Process.rank [] (reached (haltSubtree id k)).1 := by
  rw [haltSubtree_eq]
  split
  · have hhung : k.1.Reassigns Process.rank [] ((k.1.unregister id).modifyProcess id (·.hang)) :=
      (System.reassigns_unregister id []).trans
        (System.reassigns_modify (f := (·.hang)) (fun _ => rfl) id [])
    exact hhung.trans (reassigns_sweep _ ((k.1.unregister id).modifyProcess id (·.hang), k.2))
  · exact .refl [] k.1

/-- However a quantum ends, what is done about it moves no process to another worker. -/
theorem reassigns_settle (id : Nat) (quantum : Quantum) (k : Kernel) :
    k.1.Reassigns Process.rank [] (settle id quantum k).1 := by
  have hhung : k.1.Reassigns Process.rank [] (k.1.modifyProcess id (·.hang)) :=
    System.reassigns_modify (f := (·.hang)) (fun _ => rfl) id []
  cases quantum with
  | idle | yielded => exact .refl [] k.1
  | finished => exact hhung
  | faulted fault =>
    rw [settle, attempt_eq_reached]
    exact hhung.trans (reassigns_haltSubtree id (k.1.modifyProcess id (·.hang), k.2))
  | halted recursive =>
    cases recursive <;> rw [settle, attempt_eq_reached]
    · exact hhung.trans (reassigns_halt id (k.1.modifyProcess id (·.hang), k.2))
    · exact hhung.trans (reassigns_haltSubtree id (k.1.modifyProcess id (·.hang), k.2))

/-! ### Services -/

theorem reassigns_spawn (hfresh : k.1.process? k.1.nextId = none) (priority : Nat)
    (name : List UInt8) (log : List Exchange) :
    k.1.Reassigns Process.rank log (reached (host.spawn id priority name k)).1 := by
  obtain ⟨s, a⟩ := k
  rcases host_spawn_cases id priority name s a with ⟨context, b, -, heq⟩ | ⟨e, heq⟩ | ⟨e, heq⟩
  · rw [heq]
    refine ⟨fun j p hp => ?_, fun i w hw => ⟨w, ?_, .refl log w⟩⟩
    · have hleaves : s.Leaves id
          ((s.entered (some id) context).modifyProcess s.nextId ({ · with priority, name })) :=
        System.leaves_spawned hfresh context fun _ => rfl
      obtain ⟨q, hq, hstays, -⟩ := hleaves.stays j p hp
      exact ⟨q, hq, by rw [Process.rank, Process.rank, hstays.id, hstays.priority, hstays.cycle]⟩
    · rw [← workers_entered (some id) context]
      exact hw
  · rw [heq]
    exact .refl log s
  · rw [heq]
    exact System.reassigns_of_eq (s := s) (t := s.counted) rfl rfl log

theorem reassigns_bind (target : Nat) (image : Image) (log : List Exchange) :
    k.1.Reassigns Process.rank log (reached (host.bind target image k)).1 := by
  rcases host_bind_cases target image k with ⟨-, heq⟩ | ⟨e, heq⟩
  · rw [heq]
    exact System.reassigns_modify (f := ({ · with image := some image })) (fun _ => rfl) target log
  · rw [heq]
    exact .refl log k.1

/-- A dispatch that is granted gives one worker the process. -/
theorem reassigns_dispatch (target : Nat) :
    k.1.Reassigns Process.rank
      [⟨.dispatch target, Host.answer (fun _ => 0) (host.dispatch target k)⟩]
      (reached (host.dispatch target k)).1 := by
  rcases host_dispatch_cases target k with ⟨index, -, heq⟩ | ⟨e, heq⟩
  · rw [heq]
    refine ⟨fun _ p hp => ⟨p, hp, rfl⟩, fun i w hw => ?_⟩
    replace hw : (assignTo index target k.1.workers)[i]? = some w := hw
    rw [assignTo, List.getElem?_mapIdx, Option.map_eq_some_iff] at hw
    obtain ⟨v, hv, rfl⟩ := hw
    refine ⟨v, hv, ?_, fun j hj => ?_⟩
    · split
      · rw [Worker.assign]
        split <;> rfl
      · rfl
    · rcases System.mem_owned_moved.1 hj with ⟨hold, -⟩ | ⟨-, rfl⟩
      · exact .inl hold
      · exact .inr (List.mem_singleton_self _)
  · rw [heq]
    exact .refl _ k.1

theorem reassigns_print (origin : Nat) (text : String) (log : List Exchange) :
    k.1.Reassigns Process.rank log (reached (host.print origin text k)).1 := by
  rw [reached_host_print]
  apply System.reassigns_of_eq <;> rfl

/-! ### Quanta -/

/-- Whatever the program does, whoever changes its worker was dispatched. -/
theorem keeps_reassigns (id : Nat) (image : Image) (held : List (Nat × Nat)) (start : Kernel) :
    (Runner.mk id image host).logged.Keeps fun m => Running id image held start m.forget ∧
      start.1.Reassigns Process.rank m.host.2 m.host.1 := by
  refine (keeps_running id image held start).logged
    (C := fun g => start.1.Reassigns Process.rank g.2 g.1) ?_ ?_ ?_ ?_
  · intro priority name m hm log hlog
    refine hlog.trans (reassigns_spawn (k := (m.host, m.arena)) ?_ priority name _)
    exact hm.housed.furnished.fresh _ (Nat.le_refl _)
  · exact fun target entry m _ log hlog =>
      hlog.trans (reassigns_bind (k := (m.host, m.arena)) target _ _)
  · exact fun target m _ log hlog =>
      hlog.trans (reassigns_dispatch (k := (m.host, m.arena)) target)
  · exact fun text m _ log hlog =>
      hlog.trans (reassigns_print (k := (m.host, m.arena)) id text _)

theorem Housed.reassigns_runEnd (h : Housed none held k) {p : Process} {context : Context}
    (hp : k.1.process? id = some p) (himage : p.image = some image)
    (hcontext : p.context = some context) (budget : Nat) :
    k.1.Reassigns Process.rank (runLog id budget image context k)
      (reached (runEnd id budget image context k)).host := by
  have hbegin : Running id image held k (machineOf context image k).recording.forget ∧
      k.1.Reassigns Process.rank [] k.1 := ⟨h.running hp himage hcontext, .refl [] k.1⟩
  have hend := ((keeps_reassigns id image held k).run budget).reached hbegin
  rw [runEnd, ← Runner.forget_reached ⟨id, image, host⟩ budget (machineOf context image k)]
  exact hend.2

/-- A quantum of a process that is ready ages it by one round. -/
theorem Ready.reassigns {p : Process} {context : Context} (hready : Ready k id p image context)
    (h : Housed none held k) (budget : Nat) :
    (ticked id k).1.Reassigns Process.rank (Kernel.quantumLog id budget k)
      (Kernel.execute id budget k).2.1 := by
  have hrun := (h.ticked id).reassigns_runEnd (process?_ticked hready.record) hready.image
    hready.context budget
  rw [hready.execute, runQuantum_eq, hready.quantumLog]
  generalize reached (runEnd id budget image context (ticked id k)) = m at hrun ⊢
  have hsuspended : m.host.Reassigns Process.rank [] (suspend id m).1 :=
    System.reassigns_modify (f := handBack m) (fun _ => rfl) id []
  have hend := (hrun.trans hsuspended).trans
    (reassigns_settle id (quantumOfEnd (runEnd id budget image context (ticked id k))) _)
  rwa [List.append_nil, List.append_nil] at hend

end Kernel

end BytecodeKernel
