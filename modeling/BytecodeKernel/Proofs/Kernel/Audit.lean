import BytecodeKernel.Proofs.Kernel.Reachable
/-!
The audit of a kernel's memory. In every state the live blocks are exactly those that the registered
processes account for, and the blocks of the client. A program that several processes share is there
until the last of them has ended, and not longer.
-/

namespace BytecodeKernel.Kernel

variable {held : List (Nat × Nat)} {k k' : Kernel} {s t : System} {id : Nat} {r : Nat × Nat}

/-! ### The end of the last holder -/

/-- The block of a program is never given to a process while it is one. -/
theorem Housed.mem_liveBlocks_iff (h : Housed none held k) (hr : r ∈ k.1.programs)
    (h' : Housed none held k') (hrooms : ∀ x ∈ k'.1.rooms none, x ∈ k.1.rooms none) :
    r ∈ k'.2.blocks.liveBlocks ↔ r ∈ k'.1.programs := by
  rw [h'.owns.mem_iff]
  constructor
  · intro hmem
    have hnodup := h.owns.nodup
    rw [System.regions] at hnodup hmem
    obtain ⟨hregions, -, hheld⟩ := List.nodup_append.1 hnodup
    rcases List.mem_append.1 hmem with hmem | hmem
    · rcases List.mem_append.1 hmem with hroom | hprogram
      · exact absurd rfl ((List.nodup_append.1 hregions).2.2 r (hrooms r hroom) r hr)
      · exact hprogram
    · exact absurd rfl (hheld r (List.mem_append_right _ hr) r hmem)
  · exact fun hmem => List.mem_append_left _ (List.mem_append_right _ hmem)

/-- Those that have not ended have the rooms that they had. -/
theorem Ended.rooms {gone : Nat → Prop} (h : Ended gone s t) :
    ∀ x ∈ t.rooms none, x ∈ s.rooms none := by
  intro x hx
  obtain ⟨j, q, c, hq, hlent, hc, hx⟩ := System.mem_rooms.1 hx
  by_cases hj : gone j
  · rw [h.halted j hj] at hq
    obtain ⟨p, -, rfl⟩ := Option.map_eq_some_iff.1 hq
    contradiction
  · rw [(h.others j hj).1] at hq
    exact System.mem_rooms.2 ⟨j, q, c, hq, hlent, hc, hx⟩

theorem rooms_halt (hs : k.1.Orderly ∅) (id : Nat) :
    ∀ x ∈ (reached (halt id k)).1.rooms none, x ∈ k.1.rooms none := by
  by_cases hid : k.1.IsRegistered id
  · exact (ended_halt hs hid).rooms
  · rw [halt_eq, if_neg hid]
    exact fun _ hx => hx

theorem rooms_haltSubtree (hs : k.1.Orderly ∅) (id : Nat) :
    ∀ x ∈ (reached (haltSubtree id k)).1.rooms none, x ∈ k.1.rooms none := by
  by_cases hid : k.1.IsRegistered id
  · exact (ended_haltSubtree hs hid).rooms
  · rw [haltSubtree_eq, if_neg hid]
    exact fun _ hx => hx

theorem rooms_relabel {f : Process → Process} (hf : ∀ p : Process, p.Relabels (f p)) :
    ∀ x ∈ (s.modifyProcess id f).rooms none, x ∈ s.rooms none := by
  intro x hx
  obtain ⟨j, q, c, hq, hlent, hc, hmem⟩ := System.mem_rooms.1 hx
  rcases System.process?_modify_eq_some hq with ⟨rfl, p, hp, rfl⟩ | ⟨-, hq⟩
  · exact System.mem_rooms.2 ⟨j, p, c, hp, hlent, (hf p).context ▸ hc, hmem⟩
  · exact System.mem_rooms.2 ⟨j, q, c, hq, hlent, hc, hmem⟩

/-- A process that is not registered has been halted, and its release leaves it at that. -/
theorem rooms_release (hs : k.1.Orderly ∅) (hid : ¬ k.1.IsRegistered id) :
    ∀ x ∈ (release id k).1.rooms none, x ∈ k.1.rooms none := by
  obtain ⟨s, a⟩ := k
  simp only [release]
  split
  · exact fun _ hx => hx
  · rename_i p hp
    rw [hs.registered_iff_of_record hp, Bool.not_eq_false] at hid
    rw [if_pos hid]
    exact rooms_relabel Process.relabels_hang

theorem rooms_settle (hs : k.1.Orderly ∅) (id : Nat) (quantum : Quantum) :
    ∀ x ∈ (settle id quantum k).1.rooms none, x ∈ k.1.rooms none := by
  have hhang : ∀ x ∈ (k.1.modifyProcess id (·.hang)).rooms none, x ∈ k.1.rooms none :=
    rooms_relabel Process.relabels_hang
  have hhung : (k.1.modifyProcess id (·.hang)).Orderly ∅ :=
    (hs.modify fun p _ => p.relabels_hang.quiet).1
  cases quantum with
  | idle | yielded => exact fun _ hx => hx
  | finished => exact hhang
  | faulted fault =>
    intro x hx
    rw [settle, attempt_eq_reached] at hx
    exact hhang x (rooms_haltSubtree (k := (k.1.modifyProcess id (·.hang), k.2)) hhung id x hx)
  | halted recursive =>
    intro x hx
    cases recursive with
    | false =>
      rw [settle, attempt_eq_reached] at hx
      exact hhang x (rooms_halt (k := (k.1.modifyProcess id (·.hang), k.2)) hhung id x hx)
    | true =>
      rw [settle, attempt_eq_reached] at hx
      exact hhang x (rooms_haltSubtree (k := (k.1.modifyProcess id (·.hang), k.2)) hhung id x hx)

/-- The operations by which processes end, after which nothing is taken from the arena. -/
def Op.Ends : Op → Prop
  | .halt _ | .haltSubtree _ | .close _ | .closeSubtree _ | .execute .. => True
  | _ => False

theorem mem_liveBlocks_execute (h : Housed none held k) (hs : k.1.Orderly ∅)
    (hr : r ∈ k.1.programs) (id budget : Nat) :
    r ∈ (execute id budget k).2.2.blocks.liveBlocks ↔ r ∈ (execute id budget k).2.1.programs := by
  have hend := steady_execute_housed id budget k h
  rcases h.ready_or_idle hs id with
    ⟨p, image, context, hready⟩ | hidle
  · rw [hready.execute, runQuantum_eq] at hend ⊢
    have hrunning := (h.ticked id).running_runEnd (process?_ticked hready.record) hready.image
      hready.context budget
    have horderly := orderly_suspend (orderly_ticked hs id) id budget image context
    refine Housed.mem_liveBlocks_iff hrunning.suspend ?_ hend (rooms_settle horderly id _)
    -- No program leaves the arena before the process stops.
    have hticked : r ∈ (ticked id k).1.programs :=
      (System.regions_modify none k.1 id (f := (·.tick)) fun _ _ =>
        ⟨rfl, fun _ => rfl⟩).2.mem_iff.2 hr
    exact programs_suspend (hrunning.leaves.programs hticked)
  · rw [execute_of_isIdle budget hidle] at hend ⊢
    exact Housed.mem_liveBlocks_iff h hr hend fun _ hx => hx

theorem mem_liveBlocks_ends (h : Reachable held k) (hr : r ∈ k.1.programs) {op : Op}
    (hop : op.Ends) :
    r ∈ (perform k op).2.blocks.liveBlocks ↔ r ∈ (perform k op).1.programs := by
  have hbefore := h.housed
  have hs := h.orderly
  have hhalt (id : Nat) : r ∈ (reached (halt id k)).2.blocks.liveBlocks ↔
      r ∈ (reached (halt id k)).1.programs :=
    hbefore.mem_liveBlocks_iff hr ((preserves_halt_housed id).reached hbefore) (rooms_halt hs id)
  have hsubtree (id : Nat) : r ∈ (reached (haltSubtree id k)).2.blocks.liveBlocks ↔
      r ∈ (reached (haltSubtree id k)).1.programs :=
    hbefore.mem_liveBlocks_iff hr ((preserves_haltSubtree_housed id).reached hbefore)
      (rooms_haltSubtree hs id)
  have hrelease (id : Nat) (hid : ¬ k.1.IsRegistered id) :
      r ∈ (release id k).2.blocks.liveBlocks ↔ r ∈ (release id k).1.programs :=
    hbefore.mem_liveBlocks_iff hr (hbefore.release id) (rooms_release hs hid)
  cases op with
  | halt id => exact hhalt id
  | haltSubtree id => exact hsubtree id
  | execute id budget => exact mem_liveBlocks_execute hbefore hs hr id budget
  | close id =>
    simp only [perform, close]
    split
    · rw [attempt_eq_reached]
      exact hhalt id
    · exact hrelease id ‹_›
  | closeSubtree id =>
    simp only [perform, closeSubtree]
    split
    · rw [attempt_eq_reached]
      exact hsubtree id
    · exact hrelease id ‹_›
  | _ => exact absurd hop id

/-! ### The accounts -/

/-- Every registered process has its record among the registered ones, and only once. -/
theorem map_fst_registered (hs : s.Orderly ∅) :
    s.registered.map Prod.fst = s.registry.toList := by
  have hrecords : ∀ ids : List Nat, (∀ id ∈ ids, s.IsRegistered id) →
      (ids.filterMap fun id => (s.process? id).map (id, ·)).map Prod.fst = ids := by
    intro ids hids
    induction ids with
    | nil => rfl
    | cons id rest ih =>
      obtain ⟨p, hp, -⟩ := hs.recorded.alive id (hids id List.mem_cons_self)
      have hrest := ih fun j hj => hids j (List.mem_cons_of_mem _ hj)
      simp only [List.filterMap_cons, hp, Option.map_some, List.map_cons, hrest]
  exact hrecords _ fun id hid => Std.TreeSet.mem_toList.1 hid

/-- A registered process has one region for its heap and one for its operands. -/
theorem Housed.rooms_registered (h : Housed none held k) (hs : k.1.Orderly ∅)
    (hid : k.1.IsRegistered id) :
    ∃ p context, k.1.process? id = some p ∧ p.context = some context ∧
      p.rooms = [context.heap.region, context.stack.operandRegion] := by
  obtain ⟨p, hp, halive⟩ := hs.recorded.alive id hid
  obtain ⟨context, hcontext⟩ :=
    Option.ne_none_iff_exists'.1 (h.furnished.roomed id p hp halive)
  refine ⟨p, context, hp, hcontext, ?_⟩
  rw [Process.rooms, hcontext]
  exact (h.furnished.kept id p context hp (by simp) hcontext).regions_eq

theorem Housed.length_rooms (h : Housed none held k) (hs : k.1.Orderly ∅) :
    (roomsOn none k.1.registered).length = 2 * k.1.registry.size := by
  have hrecords : ∀ records : List (Nat × Process), (∀ e ∈ records, e.2.rooms.length = 2) →
      (roomsOn none records).length = 2 * records.length := by
    intro records hrecords
    induction records with
    | nil => rfl
    | cons e rest ih =>
      obtain ⟨id, p⟩ := e
      rw [roomsOn_cons (by simp), List.length_append, hrecords (id, p) List.mem_cons_self,
        ih fun f hf => hrecords f (List.mem_cons_of_mem _ hf), List.length_cons]
      omega
  have hlength : k.1.registered.length = k.1.registry.size := by
    rw [← Std.TreeSet.length_toList, ← map_fst_registered hs, List.length_map]
  rw [← hlength]
  refine hrecords _ fun e he => ?_
  obtain ⟨hid, hp⟩ := System.mem_registered.1 he
  obtain ⟨p, context, hp', -, hrooms⟩ := h.rooms_registered hs hid
  obtain rfl := Option.some.inj (hp.symm.trans hp')
  rw [hrooms]
  rfl

/-- The live blocks are the heap and the operands of each registered process, one block for each
program that a registered process has, and the blocks of the client. When processes end, a program
that one of them had is freed exactly if no registered process has it any more, and when no process
is left the client's blocks are all there is. -/
theorem accounts_of_reachable (h : Reachable held k) :
    k.2.blocks.liveBlocks.Perm
        (roomsOn none k.1.registered ++ programsOn k.1.registered ++ held) ∧
      (∀ id, k.1.IsRegistered id →
        ∃ p context, k.1.process? id = some p ∧ p.context = some context ∧
          p.rooms = [context.heap.region, context.stack.operandRegion]) ∧
      k.2.blocks.liveBlocks.length =
        2 * k.1.registry.size + (programsOn k.1.registered).length + held.length ∧
      (∀ op : Op, op.Ends → ∀ r ∈ programsOn k.1.registered,
        (r ∈ (perform k op).2.blocks.liveBlocks ↔
          ∃ id p, (perform k op).1.IsRegistered id ∧ (perform k op).1.process? id = some p ∧
            p.program? = some r)) ∧
      (k.1.registry.isEmpty → k.2.blocks.liveBlocks.Perm held) := by
  have hhoused := h.housed
  have hs := h.orderly
  have hperm : k.2.blocks.liveBlocks.Perm
      (roomsOn none k.1.registered ++ programsOn k.1.registered ++ held) :=
    hhoused.owns.live.trans ((System.regions_perm_registered hs).append_right held)
  -- A block of a program is one of a registered process.
  have hprograms {k : Kernel} (hs : k.1.Orderly ∅) (r : Nat × Nat) :
      r ∈ k.1.programs ↔ r ∈ programsOn k.1.registered := by
    rw [System.programs, ← System.programsOn_filter fun e he hhalted =>
      hs.recorded.bare e.1 e.2 (System.mem_processes_toList.1 he) hhalted]
    exact (programsOn_perm (System.registered_perm hs).symm).mem_iff
  refine ⟨hperm, fun id hid => hhoused.rooms_registered hs hid, ?_, ?_, ?_⟩
  · rw [hperm.length_eq, List.length_append, List.length_append, hhoused.length_rooms hs]
  · intro op hop r hr
    have hends : ¬ op.IsBindImage := by
      intro hbind
      cases op <;> first | exact hbind | exact hop
    have hafter := (h.perform op hends).orderly
    rw [mem_liveBlocks_ends h ((hprograms hs r).2 hr) hop, hprograms hafter, mem_programsOn]
    constructor
    · rintro ⟨⟨id, p⟩, he, hp⟩
      obtain ⟨hid, hrecord⟩ := System.mem_registered.1 he
      exact ⟨id, p, hid, hrecord, hp⟩
    · rintro ⟨id, p, hid, hrecord, hp⟩
      exact ⟨(id, p), System.mem_registered.2 ⟨hid, hrecord⟩, hp⟩
  · intro hempty
    have hnone : k.1.registered = [] := by
      rw [← List.map_eq_nil_iff (f := Prod.fst), map_fst_registered hs]
      exact List.isEmpty_iff.1 (Std.TreeSet.isEmpty_toList.trans hempty)
    rw [hnone] at hperm
    exact hperm

/-! ### A shared program -/

/-- Spawns a child and gives it this program, to begin at its start. -/
def sharingProgram : List UInt8 :=
  [2, 0, 0, 0, 50, 0, 0, 3, 0, 0, 0, 0]

/-- The kernel in which a parent and its child have one program. -/
def sharingKernel : Kernel :=
  performAll familyKernel [.generate none, .bindProgram 0 sharingProgram, .execute 0 2]

theorem reachable_sharingKernel : Reachable [] sharingKernel := by
  have hcreate : Kernel.create familySettings = .ok familyKernel := rfl
  apply (Reachable.create hcreate).performAll
  simp [Op.IsBindImage]

/-- Two processes with one program account for five blocks. The program stays with the child when
the parent is halted, and nothing is left when both are. -/
theorem accounts_of_sharingKernel :
    Reachable [] sharingKernel ∧
      sharingKernel.2.blocks.liveBlocks.length = 5 ∧
      (129, 12) ∈ (perform sharingKernel (.halt 0)).2.blocks.liveBlocks ∧
      (perform (perform sharingKernel (.halt 0)) (.halt 1)).2.blocks.liveBlocks.Perm [] := by
  have hreachable := reachable_sharingKernel
  obtain ⟨-, -, hlength, hfreed, -⟩ := accounts_of_reachable hreachable
  have hlast := (hreachable.perform (.halt 0) id).perform (.halt 1) id
  obtain ⟨-, -, -, -, hempty⟩ := accounts_of_reachable hlast
  have hregistry : sharingKernel.1.registry.size = 2 := by decide +kernel
  have hprograms : programsOn sharingKernel.1.registered = [(129, 12)] := by decide +kernel
  have hchild : ((perform sharingKernel (.halt 0)).1.process? 1).bind (·.program?) =
      some (129, 12) := by decide +kernel
  refine ⟨hreachable, ?_, ?_, hempty (by decide +kernel)⟩
  · rw [hlength, hregistry, hprograms]
    rfl
  · refine (hfreed (.halt 0) trivial (129, 12) (hprograms ▸ List.mem_singleton_self _)).2 ?_
    obtain ⟨p, hp, hprogram⟩ := Option.bind_eq_some_iff.1 hchild
    exact ⟨1, p, by decide +kernel, hp, hprogram⟩

end BytecodeKernel.Kernel
