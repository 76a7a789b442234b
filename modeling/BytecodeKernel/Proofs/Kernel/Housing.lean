import BytecodeKernel.Proofs.Kernel.Accounts
/-!
The invariant behind the accounts: the live blocks of the arena are what the records hold, and what
the client of the kernel holds beside it. While a process runs, its context is lent to the machine,
whose regions are then among those held. Requests, runs and the ends of processes keep the
invariant; what one of them takes from the arena a record gets, and what a record loses goes back.
-/

namespace BytecodeKernel.Kernel

/-- Every process that is not halted has a context, which is in good order unless it is lent. The
children of processes are on record, and the identities from the counter on are free. -/
structure Furnished (lent : Option Nat) (s : System) : Prop where
  kept : ∀ id p c, s.process? id = some p → lent ≠ some id → p.context = some c → c.Kept
  roomed : ∀ id p, s.process? id = some p → p.halted = false → p.context ≠ none
  lender : ∀ id, lent = some id → ∃ p, s.process? id = some p ∧ p.context ≠ none
  filed : ∀ id p, s.process? id = some p → ∀ c ∈ p.children, s.process? c ≠ none
  fresh : ∀ id, s.nextId ≤ id → s.process? id = none

/-- The live blocks are those of the processes, their programs and what is held beside them. -/
structure Housed (lent : Option Nat) (held : List (Nat × Nat)) (k : Kernel) : Prop where
  owns : k.2.Owns (k.1.regions lent ++ held)
  furnished : Furnished lent k.1

variable {lent : Option Nat} {held others : List (Nat × Nat)} {k : Kernel} {s t : System}
  {a b : Arena} {id : Nat}

theorem Furnished.congr (h : Furnished lent s) (hprocesses : t.processes = s.processes)
    (hcounter : s.nextId ≤ t.nextId) : Furnished lent t := by
  refine ⟨?_, ?_, ?_, ?_, ?_⟩
  all_goals simp only [System.process?_congr hprocesses]
  · exact h.kept
  · exact h.roomed
  · exact h.lender
  · exact h.filed
  · exact fun id hid => h.fresh id (hcounter.trans hid)

theorem Furnished.modify (h : Furnished lent s) {f : Process → Process}
    (hkept : ∀ p c, s.process? id = some p → lent ≠ some id → (f p).context = some c → c.Kept)
    (hroomed : ∀ p, s.process? id = some p → (f p).halted = false → (f p).context ≠ none)
    (hlender : ∀ p, s.process? id = some p → lent = some id → (f p).context ≠ none)
    (hchildren : ∀ p, (f p).children = p.children) : Furnished lent (s.modifyProcess id f) := by
  refine ⟨?_, ?_, ?_, ?_, ?_⟩
  · intro j q c hq hj hc
    rcases System.process?_modify_eq_some hq with ⟨rfl, p, hp, rfl⟩ | ⟨-, hq⟩
    · exact hkept p c hp hj hc
    · exact h.kept j q c hq hj hc
  · intro j q hq halive
    rcases System.process?_modify_eq_some hq with ⟨rfl, p, hp, rfl⟩ | ⟨-, hq⟩
    · exact hroomed p hp halive
    · exact h.roomed j q hq halive
  · intro j hj
    obtain ⟨p, hp, hsome⟩ := h.lender j hj
    refine ⟨_, System.process?_modify_of_eq_some hp, ?_⟩
    split
    · rename_i heq
      subst heq
      exact hlender p hp hj
    · exact hsome
  · intro j q hq c hc
    have hrecord : s.process? c ≠ none := by
      rcases System.process?_modify_eq_some hq with ⟨rfl, p, hp, rfl⟩ | ⟨-, hq⟩
      · exact h.filed j p hp c (hchildren p ▸ hc)
      · exact h.filed j q hq c hc
    obtain ⟨r, hr⟩ := Option.ne_none_iff_exists'.1 hrecord
    rw [System.process?_modify_of_eq_some hr]
    exact Option.some_ne_none _
  · intro j hj
    rw [System.process?_modifyProcess, h.fresh j hj]
    split
    · rename_i heq
      rw [heq, h.fresh j hj]
      rfl
    · rfl

/-- A change that leaves the context alone. -/
theorem Furnished.relabel (h : Furnished lent s) {f : Process → Process}
    (hcontext : ∀ p, s.process? id = some p → (f p).context = p.context)
    (hhalted : ∀ p, s.process? id = some p → (f p).halted = false → p.halted = false)
    (hchildren : ∀ p, (f p).children = p.children) :
    Furnished lent (s.modifyProcess id f) := by
  refine h.modify ?_ ?_ ?_ hchildren
  · intro p c hp hj hc
    exact h.kept id p c hp hj ((hcontext p hp).symm.trans hc)
  · intro p hp halive
    rw [hcontext p hp]
    exact h.roomed id p hp (hhalted p hp halive)
  · intro p hp hj
    obtain ⟨q, hq, hsome⟩ := h.lender id hj
    obtain rfl : p = q := Option.some.inj (hp.symm.trans hq)
    rwa [hcontext p hp]

theorem Housed.withArena (h : Housed lent held (s, a)) (howns : b.Owns (s.regions lent ++ others)) :
    Housed lent others (s, b) :=
  ⟨howns, h.furnished⟩

theorem Housed.reorder (h : Housed lent held k) (hperm : held.Perm others) :
    Housed lent others k :=
  h.withArena (h.owns.perm (hperm.append_left _))

/-- Whatever happens to the parts of a system that are not records. -/
theorem Housed.congr (h : Housed lent held (s, a)) (hprocesses : t.processes = s.processes)
    (hcounter : s.nextId ≤ t.nextId) : Housed lent held (t, a) := by
  refine ⟨?_, h.furnished.congr hprocesses hcounter⟩
  rw [System.regions_congr hprocesses]
  exact h.owns

theorem Housed.relabel (h : Housed lent held k) {f : Process → Process}
    (hf : ∀ p : Process, p.Relabels (f p)) : Housed lent held (k.1.modifyProcess id f, k.2) := by
  obtain ⟨hregions, -⟩ := System.regions_modify lent k.1 id
    fun p _ => ⟨(hf p).image, fun _ => (hf p).context⟩
  refine ⟨h.owns.perm (hregions.symm.append_right _), h.furnished.relabel ?_ ?_ ?_⟩
  · exact fun p _ => (hf p).context
  · exact fun p _ halive => (hf p).halted.symm.trans halive
  · exact fun p => (hf p).children

/-! ### Requests -/

theorem Housed.counted (h : Housed lent held (s, a)) : Housed lent held (s.counted, a) :=
  h.congr rfl (Nat.le_succ _)

theorem Housed.roomFor (h : Housed lent held (s, a)) :
    Housed lent held (s, roomFor s.settings a) :=
  h.withArena (h.owns.reserveOrKeep _).1

/-- A new process comes with a context that nobody else has. -/
theorem Furnished.enter (h : Furnished lent s) (hlent : lent ≠ some s.nextId)
    (parent : Option Nat) {context : Context} (hkept : context.Kept) :
    Furnished lent (s.entered parent context) := by
  refine ⟨?_, ?_, ?_, ?_, ?_⟩
  · intro j q c hq hj hc
    rcases System.process?_entered_eq_some hq with ⟨rfl, rfl⟩ | ⟨-, p, hp, hq⟩
    · obtain rfl := Option.some.inj hc
      exact hkept
    · refine h.kept j p c hp hj ?_
      rcases hq with rfl | ⟨-, rfl⟩
      · exact hc
      · rwa [Process.context_addChild] at hc
  · intro j q hq halive
    rcases System.process?_entered_eq_some hq with ⟨rfl, rfl⟩ | ⟨-, p, hp, hq⟩
    · exact Option.some_ne_none context
    · rcases hq with rfl | ⟨-, rfl⟩
      · exact h.roomed j q hp halive
      · rw [Process.halted_addChild] at halive
        rw [Process.context_addChild]
        exact h.roomed j p hp halive
  · intro j hj
    obtain ⟨p, hp, hsome⟩ := h.lender j hj
    have hne : j ≠ s.nextId := fun heq => hlent (heq ▸ hj)
    obtain ⟨q, hq, rfl | ⟨-, rfl⟩⟩ := System.exists_process?_entered hp hne parent context
    · exact ⟨_, hq, hsome⟩
    · exact ⟨_, hq, by rwa [Process.context_addChild]⟩
  · intro j q hq c hc
    -- A child is the new process or was on record before, and whoever was stays on record.
    rw [System.process?_entered_ne_none_iff]
    rcases System.process?_entered_eq_some hq with ⟨rfl, rfl⟩ | ⟨-, p, hp, hq⟩
    · contradiction
    · rcases hq with rfl | ⟨-, rfl⟩
      · exact .inr (h.filed j q hp c hc)
      · exact (Process.mem_children_addChild.1 hc).symm.imp_right (h.filed j p hp c)
  · intro j hj
    have hlt : s.nextId < j := by
      rwa [System.nextId_entered] at hj
    refine not_not.1 fun hrecord => ?_
    rcases System.process?_entered_ne_none_iff.1 hrecord with heq | hold
    · exact hlt.ne' heq
    · exact hold (h.fresh j hlt.le)

/-- A new process brings its regions along. -/
theorem Housed.enter (h : Housed lent held (s, a)) (parent : Option Nat) {context : Context}
    {heapBytes stackBytes : Nat}
    (hcreate : Context.create heapBytes stackBytes a = .ok (context, b)) :
    Housed lent held (s.entered parent context, b) := by
  obtain ⟨howns, hkept, -⟩ := Context.owns_of_create h.owns hcreate
  have hfresh := h.furnished.fresh s.nextId (Nat.le_refl _)
  have hlent : lent ≠ some s.nextId := by
    intro heq
    obtain ⟨p, hp, -⟩ := h.furnished.lender _ heq
    exact Option.some_ne_none p (hp.symm.trans hfresh)
  obtain ⟨hregions, -⟩ := System.regions_entered parent context hfresh hlent
  refine ⟨howns.perm (List.Perm.trans ?_ (hregions.symm.append_right held)),
    h.furnished.enter hlent parent hkept⟩
  rw [List.append_assoc]

/-- A process gets a program whose block is accounted for. -/
theorem Housed.bound (h : Housed lent held (s, a)) {image : Image}
    (howns : b.Owns ((Kernel.bound s id image).regions lent ++ others)) :
    Housed lent others (Kernel.bound s id image, b) :=
  ⟨howns, h.furnished.relabel (fun _ _ => rfl) (fun _ _ halive => halive) fun _ => rfl⟩

/-- A program that another process has is shared. -/
theorem Housed.bindShared (h : Housed lent held (s, a)) (hid : Bindable s id) {image : Image}
    (hmem : image.region ∈ s.programs) :
    Housed lent held (Kernel.bound s id image, a) := by
  obtain ⟨p, hp, -, himage⟩ := hid
  obtain ⟨hrooms, hprograms⟩ := System.regions_bound lent image hp himage
  rw [List.insert_of_mem hmem] at hprograms
  exact h.bound (h.owns.perm ((hrooms.append hprograms).symm.append_right _))

/-- No process has a program in a block of the client. -/
theorem Housed.not_mem_programs {image : Image} (h : Housed lent (image.region :: held) k) :
    image.region ∉ k.1.programs := by
  have hnodup := (h.owns.perm List.perm_middle).nodup
  exact fun hmem => (List.nodup_cons.1 hnodup).1
    (List.mem_append_left _ (List.mem_append_right _ hmem))

/-- A program whose block was held by the client passes to the process. -/
theorem Housed.bindHeld {image : Image} (h : Housed lent (image.region :: held) (s, a))
    (hid : Bindable s id) : Housed lent held (Kernel.bound s id image, a) := by
  obtain ⟨p, hp, -, himage⟩ := hid
  obtain ⟨hrooms, hprograms⟩ := System.regions_bound lent image hp himage
  have howns : a.Owns (image.region :: (s.regions lent ++ held)) :=
    h.owns.perm List.perm_middle
  rw [List.insert_of_not_mem h.not_mem_programs] at hprograms
  refine h.bound (howns.perm ?_)
  refine List.Perm.trans ?_ ((hrooms.append hprograms).symm.append_right held)
  exact (List.perm_middle.append_right held).symm

theorem preserves_generateUnder_housed (parent : Option Nat) :
    Preserves (Housed lent held) (generateUnder parent) := by
  rintro ⟨s, a⟩ h
  rw [generateUnder_eq]
  by_cases hlimit : s.settings.maxProcesses ≤ s.nextId
  · rw [if_pos hlimit]
    exact h
  · rw [if_neg hlimit]
    cases hcreate : Context.create s.settings.heapBytes s.settings.stackBytes
      (Kernel.roomFor s.settings a) with
    | error e => exact h.roomFor.counted
    | ok result => exact h.roomFor.enter parent hcreate

theorem preserves_generate_housed (parent : Option Nat) :
    Preserves (Housed lent held) (generate parent) := by
  cases parent with
  | none => exact preserves_generateUnder_housed none
  | some parent =>
    exact .bind (preserves_requireRegistered parent) fun _ =>
      preserves_generateUnder_housed (some parent)

theorem preserves_bindProgram_housed (id : Nat) (bytes : List UInt8) :
    Preserves (Housed lent held) (bindProgram id bytes) := by
  rintro ⟨s, a⟩ h
  rcases bindProgram_cases id bytes (s, a) with ⟨image, b, hid, hload, heq⟩ | ⟨e, heq⟩
  · rw [heq]
    obtain ⟨howns, -⟩ := Workspace.owns_of_load h.owns hload
    have hheld : Housed lent (image.region :: held) (s, b) :=
      h.withArena (howns.perm List.perm_middle.symm)
    exact hheld.bindHeld hid
  · rw [heq]
    exact h

theorem preserves_dispatch_housed (id : Nat) : Preserves (Housed lent held) (dispatch id) := by
  rintro ⟨s, a⟩ h
  rcases dispatch_cases id (s, a) with ⟨index, -, heq⟩ | ⟨e, heq⟩
  · rw [heq]
    exact h.congr rfl (Nat.le_refl _)
  · rw [heq]
    exact h

/-! ### The ends of processes -/

theorem holdsBlock_iff {base : Nat} :
    holdsBlock s base = true ↔ ∃ r ∈ s.programs, r.1 = base := by
  rw [holdsBlock, values_eq_map_toList, List.any_map, List.any_eq_true]
  constructor
  · rintro ⟨⟨id, p⟩, he, hbase⟩
    obtain ⟨image, himage, heq⟩ := (Option.any_eq_true _ _).1 hbase
    refine ⟨image.region, System.mem_programs.2 ⟨id, p, image, ?_, himage, rfl⟩, beq_iff_eq.1 heq⟩
    exact System.mem_processes_toList.1 he
  · rintro ⟨r, hr, rfl⟩
    obtain ⟨id, p, image, hp, himage, rfl⟩ := System.mem_programs.1 hr
    refine ⟨(id, p), System.mem_processes_toList.2 hp, ?_⟩
    exact (Option.any_eq_true _ _).2 ⟨image, himage, beq_self_eq_true _⟩

/-- A live block is told by its start, so a process has a program there just when it has the one in
this block. -/
theorem holdsBlock_iff_of_owns {image : Image} {regions : List (Nat × Nat)} (h : a.Owns regions)
    (himage : image.region ∈ regions) (hprograms : s.programs ⊆ regions) :
    holdsBlock s image.base = true ↔ image.region ∈ s.programs := by
  rw [holdsBlock_iff]
  constructor
  · rintro ⟨⟨base, size⟩, hr, rfl⟩
    obtain rfl : size = image.length := h.size_unique (hprograms hr) himage
    exact hr
  · exact fun hmem => ⟨_, hmem, rfl⟩

/-- A program leaves the arena if no process has it any more. -/
theorem owns_dropImage {image : Image}
    (h : a.Owns (s.rooms lent ++ s.programs.insert image.region ++ held)) :
    (dropImage s image a).Owns (s.regions lent ++ held) ∧
      (dropImage s image a).store = a.store ∧ (dropImage s image a).limit = a.limit := by
  have hholds : holdsBlock s image.base = true ↔ image.region ∈ s.programs :=
    holdsBlock_iff_of_owns h
      (List.mem_append_left _ (List.mem_append_right _ List.mem_insert_self)) fun r hr =>
        List.mem_append_left _ (List.mem_append_right _ (List.mem_insert_of_mem hr))
  simp only [dropImage, hholds]
  by_cases hmem : image.region ∈ s.programs
  · rw [if_pos hmem]
    rw [List.insert_of_mem hmem] at h
    exact ⟨h, rfl, rfl⟩
  · rw [if_neg hmem]
    rw [List.insert_of_not_mem hmem, List.append_assoc, List.cons_append] at h
    refine (h.perm List.perm_middle).discard.imp_left fun howns => ?_
    rwa [System.regions, List.append_assoc]

/-! ### Images that a client binds -/

/-- A program that some process has stays, whoever else drops it. -/
theorem dropHandle_of_shared {image : Image} (hmem : image.region ∈ k.1.programs) (kept : Bool) :
    dropHandle image kept k = k := by
  have hholds : holdsBlock k.1 image.base = true := holdsBlock_iff.2 ⟨_, hmem, rfl⟩
  cases kept with
  | true => rfl
  | false => exact congrArg (k.1, ·) (if_pos hholds)

/-- The last handle of a program in a block of the client is the last one of all. -/
theorem Housed.dropHandle_eq {image : Image} (h : Housed lent (image.region :: held) k) :
    Kernel.dropHandle image false k = (k.1, k.2.discard image.base) := by
  have howns := h.owns.perm List.perm_middle
  have hnone : ¬ holdsBlock k.1 image.base = true := by
    rw [holdsBlock_iff_of_owns howns List.mem_cons_self fun r hr => List.mem_cons_of_mem _
      (List.mem_append_left _ (List.mem_append_right _ hr))]
    exact h.not_mem_programs
  exact congrArg (k.1, ·) (if_neg hnone)

theorem Housed.dropHandle {image : Image} (h : Housed lent (image.region :: held) k) :
    Housed lent held (Kernel.dropHandle image false k) := by
  rw [h.dropHandle_eq]
  exact h.withArena (h.owns.perm List.perm_middle).discard.1

/-- A program in a block of the client passes to the process or is freed. -/
theorem Housed.bindImage_held {image : Image} (h : Housed lent (image.region :: held) k)
    (id : Nat) : Housed lent held (reached (bindImage id image false k)) := by
  rcases bindImage_cases id image false k with ⟨hid, heq⟩ | ⟨e, heq⟩
  · rw [heq]
    exact h.bindHeld hid
  · rw [heq]
    exact h.dropHandle

/-- A program that some process has is shared or stays as it is. -/
theorem Housed.bindImage_shared {image : Image} (h : Housed lent held k)
    (hmem : image.region ∈ k.1.programs) (id : Nat) (kept : Bool) :
    Housed lent held (reached (bindImage id image kept k)) := by
  rcases bindImage_cases id image kept k with ⟨hid, heq⟩ | ⟨e, heq⟩
  · rw [heq]
    exact h.bindShared hid hmem
  · rw [heq]
    exact (dropHandle_of_shared hmem kept).symm ▸ h

/-- A process that is halted gives back what it held, and its program if it was the last to have
it. -/
theorem Housed.halt (h : Housed none held (s, a)) {p : Process} (hp : s.process? id = some p) :
    Housed none held (s.modifyProcess id (·.halt),
      p.image.elim (p.context.elim a (·.release a))
        (dropImage (s.modifyProcess id (·.halt)) · (p.context.elim a (·.release a)))) := by
  obtain ⟨hrooms, hprograms⟩ := System.regions_halted hp
  have howns : a.Owns (p.rooms ++ ((s.modifyProcess id (·.halt)).rooms none ++
      (s.programs ++ held))) := by
    refine h.owns.perm ?_
    rw [System.regions, List.append_assoc, ← List.append_assoc p.rooms]
    exact hrooms.append_right _
  have hfreed : (p.context.elim a (·.release a)).Owns
      ((s.modifyProcess id (·.halt)).rooms none ++ (s.programs ++ held)) := by
    cases hcontext : p.context with
    | none => simpa only [Process.rooms, hcontext, Option.elim_none, List.nil_append] using howns
    | some c =>
      rw [Process.rooms, hcontext] at howns
      exact ((h.furnished.kept id p c hp (by simp) hcontext).owns_release howns).1
  have hend : (p.image.elim (p.context.elim a (·.release a))
      (dropImage (s.modifyProcess id (·.halt)) · (p.context.elim a (·.release a)))).Owns
        ((s.modifyProcess id (·.halt)).regions none ++ held) := by
    have hmid := hfreed.perm ((hprograms.append_right held).append_left _)
    rw [← List.append_assoc] at hmid
    cases himage : p.image with
    | none =>
      rw [Process.program?, himage] at hmid
      exact hmid
    | some image =>
      rw [Process.program?, himage] at hmid
      exact (owns_dropImage hmid).1
  refine ⟨hend, h.furnished.modify ?_ ?_ ?_ fun _ => rfl⟩
  · exact fun q c _ _ hc => absurd hc (by simp [Process.halt])
  · exact fun q _ halive => absurd halive (by simp [Process.halt])
  · exact fun q _ hj => by simp at hj

theorem Housed.release (h : Housed none held k) (id : Nat) :
    Housed none held (Kernel.release id k) := by
  obtain ⟨s, a⟩ := k
  simp only [Kernel.release]
  split
  · exact h
  · rename_i p hp
    split
    · exact h.relabel Process.relabels_hang
    · exact h.halt hp

theorem Housed.unregister (h : Housed lent held (s, a)) (id : Nat) :
    Housed lent held (s.unregister id, a) :=
  h.congr rfl (Nat.le_refl _)

theorem Housed.detach (h : Housed lent held (s, a)) (ids : List Nat) :
    Housed lent held ((Kernel.detach s ids).2, a) := by
  induction ids with
  | nil => exact h
  | cons id rest ih =>
    simp only [Kernel.detach]
    split
    · exact (ih.unregister id).relabel Process.relabels_hang
    · exact ih

theorem Housed.sweep {pending : List Ending} (h : Housed none held k) :
    Housed none held (Kernel.sweep pending k) := by
  fun_induction Kernel.sweep pending k with
  | case1 k => exact h
  | case2 k id rest ih => exact ih (h.release id)
  | case3 k id rest found ih => exact ih (h.detach _)

theorem preserves_halt_housed (id : Nat) : Preserves (Housed none held) (halt id) := by
  rintro k h
  rw [halt_eq]
  by_cases hid : k.1.IsRegistered id
  · rw [if_pos hid]
    exact (h.unregister id).release id
  · rw [if_neg hid]
    exact h

theorem preserves_haltSubtree_housed (id : Nat) :
    Preserves (Housed none held) (haltSubtree id) := by
  rintro k h
  rw [haltSubtree_eq]
  by_cases hid : k.1.IsRegistered id
  · rw [if_pos hid]
    exact Housed.sweep ((h.unregister id).relabel Process.relabels_hang)
  · rw [if_neg hid]
    exact h

end BytecodeKernel.Kernel
