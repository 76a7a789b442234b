import BytecodeKernel.Proofs.Machine.Contexts
import BytecodeKernel.Proofs.Machine.Refinement
import BytecodeKernel.Proofs.Machine.Sessions
/-!
Heaps and stacks over a session. Whoever uses them, and whatever fails on the way, the table of a
heap tiles its region, and a stack has whole slots, and a region for its frames for as long as one
of them is open. So wherever a program begins in a session it finds its heap and its stack in order,
and a host that acts in the session leaves both of them alone.
-/

namespace BytecodeKernel

/-! ### Stacks -/

namespace Stack

/-- Whole slots, and a region for the frames if one of them is open. -/
structure Regular (t : Stack) : Prop where
  whole : slotSize ∣ t.top
  framed : t.depth ≠ 0 → t.frames ≠ none

theorem isShape_regular : IsShape Regular where
  moved _ _ _ ht := ⟨ht.whole, ht.framed⟩
  pushed _ ht := ⟨Nat.dvd_add ht.whole (Nat.dvd_refl _), ht.framed⟩
  popped _ _ ht := ⟨Nat.dvd_sub ht.whole (Nat.dvd_refl _), ht.framed⟩
  returned _ ht := ⟨ht.whole, fun hdepth => ht.framed fun hzero => hdepth (by simp [hzero])⟩

theorem hoare_frameRegion_regular :
    Hoare (fun t : Stack × Arena => t.1.Regular) frameRegion
      (fun _ t => t.1.Regular ∧ t.1.frames ≠ none) fun t => t.1.Regular := by
  refine Hoare.bind TenantM.hoare_self fun s => ?_
  split
  · rename_i region hframes
    refine Hoare.pure fun t ht => ⟨ht.1, ?_⟩
    rw [ht.2, hframes]
    exact Option.some_ne_none region
  · refine Hoare.bind (Q := fun _ t => t.1.Regular)
      (TenantM.hoare_onArena (fun _ _ _ _ ht _ => ht.1) fun _ _ _ ht _ => ht.1) fun region => ?_
    refine Hoare.bind (Q := fun _ t => t.1.Regular ∧ t.1.frames ≠ none)
      (TenantM.hoare_modifySelf fun t a ht => ?_) fun _ => Hoare.pure fun _ ht => ht
    exact ⟨⟨ht.whole, fun _ => Option.some_ne_none region⟩, Option.some_ne_none region⟩

/-- A frame is opened only once there is a region for it. -/
theorem preserves_pushFrame_regular (cursor : Nat) :
    Preserves (fun t : Stack × Arena => t.1.Regular) (pushFrame cursor) := by
  have hwrite (f : Arena → Except MemoryError Arena) :
      Hoare (fun t : Stack × Arena => t.1.Regular ∧ t.1.frames ≠ none)
        (TenantM.updateArena Fault.memory f) (fun _ t => t.1.Regular ∧ t.1.frames ≠ none)
        fun t => t.1.Regular :=
    TenantM.hoare_updateArena (fun _ _ _ ht _ => ht) fun _ _ _ ht _ => ht.1
  refine .bind TenantM.preserves_self fun s => .optional (.throw _) ?_
  refine Hoare.bind hoare_frameRegion_regular fun region => ?_
  refine Hoare.bind ((preserves_frameSlot _ _).weaken (fun _ ht => ht) (fun _ _ ht => ht)
    fun _ ht => ht.1) fun addr => ?_
  refine Hoare.bind (hwrite _) fun _ => Hoare.bind (hwrite _) fun _ => ?_
  exact TenantM.hoare_modifySelf fun t a ht => ⟨ht.1.whole, fun _ => ht.2⟩

/-- Whatever the owner of a stack does. -/
theorem preserves_action_regular (call : Call) :
    Preserves (fun t : Stack × Arena => t.1.Regular) call.action := by
  cases call with
  | push v => exact isShape_regular.push v
  | pop => exact .bind isShape_regular.pop fun _ => .pure _
  | peek => exact .bind preserves_peek_record fun _ => .pure _
  | pushFrame cursor => exact preserves_pushFrame_regular cursor
  | peekFrame => exact .bind preserves_peekFrame fun _ => .pure _
  | popFrame => exact .bind isShape_regular.popFrame fun _ => .pure _
  | getLocal index => exact .bind (preserves_getLocal_record index) fun _ => .pure _
  | setLocal index v => exact preserves_setLocal_record index v

theorem regular_of_create {size : Nat} {a after : Arena} {t : Stack}
    (hcreate : create size a = .ok (t, after)) : t.Regular := by
  obtain ⟨hplain, htop⟩ := plain_of_create hcreate
  exact ⟨hplain.slots, fun hdepth => absurd hplain.depth hdepth⟩

end Stack

/-! ### Holdings -/

/-- All heaps and all stacks are in order. -/
structure Holdings.Orderly (e : Holdings) : Prop where
  tiled : ∀ (id : Nat) h, e.heapTable[id]? = some h → h.Tiled
  regular : ∀ (id : Nat) t, e.stackTable[id]? = some t → t.Regular

namespace Holdings.Orderly

variable {e : Holdings}

theorem putHeap (he : e.Orderly) (id : Nat) {h : Heap} (hh : h.Tiled) :
    Orderly { e with heapTable := e.heapTable.insert id h } :=
  ⟨of_getElem?_insert he.tiled id hh, he.regular⟩

theorem putStack (he : e.Orderly) (id : Nat) {t : Stack} (ht : t.Regular) :
    Orderly { e with stackTable := e.stackTable.insert id t } :=
  ⟨he.tiled, of_getElem?_insert he.regular id ht⟩

theorem without (he : e.Orderly) (n : Name) : (e.without n).Orderly := by
  cases n with
  | heap id => exact ⟨of_getElem?_erase he.tiled id, he.regular⟩
  | stack id => exact ⟨he.tiled, of_getElem?_erase he.regular id⟩
  | image id => exact ⟨he.tiled, he.regular⟩

variable {w v : Workspace}

theorem dropHeap (hw : w.Orderly) (id : Nat) : (w.dropHeap id).Orderly := by
  rw [Workspace.dropHeap]
  split
  · exact hw.without (.heap id)
  · exact hw

theorem dropStack (hw : w.Orderly) (id : Nat) : (w.dropStack id).Orderly := by
  rw [Workspace.dropStack]
  split
  · exact hw.without (.stack id)
  · exact hw

theorem dropImage (hw : w.Orderly) (id : Nat) : (w.dropImage id).Orderly := by
  rw [Workspace.dropImage]
  split
  · exact hw.without (.image id)
  · exact hw

theorem newHeap (hw : w.Orderly) {id size : Nat} (hnew : w.newHeap id size = .ok v) :
    v.Orderly := by
  obtain ⟨⟨h, a⟩, hcreate, hv⟩ := ok_of_bind hnew
  cases hv
  exact (dropHeap (w := { w with arena := a }) hw id).putHeap id (Heap.tiled_of_create hcreate).1

theorem newStack (hw : w.Orderly) {id size : Nat} (hnew : w.newStack id size = .ok v) :
    v.Orderly := by
  obtain ⟨⟨t, a⟩, hcreate, hv⟩ := ok_of_bind hnew
  cases hv
  exact (dropStack (w := { w with arena := a }) hw id).putStack id (Stack.regular_of_create hcreate)

theorem loadImage (hw : w.Orderly) {id : Nat} {bytes : List UInt8}
    (hload : w.loadImage id bytes = .ok v) : v.Orderly := by
  obtain ⟨⟨i, a⟩, -, hv⟩ := ok_of_bind hload
  cases hv
  have hdropped := dropImage (w := { w with arena := a }) hw id
  exact ⟨hdropped.tiled, hdropped.regular⟩

theorem enterImage (hw : w.Orderly) (id source entry : Nat) :
    (w.enterImage id source entry).Orderly := by
  have hdropped := hw.dropImage id
  rw [Workspace.enterImage]
  split
  · simp only
    split
    · exact ⟨hw.tiled, hw.regular⟩
    · exact ⟨hdropped.tiled, hdropped.regular⟩
  · exact hw

theorem onHeap {α : Type} (hw : w.Orderly) {id : Nat} {x : HeapM α}
    (hx : Preserves (fun t : Heap × Arena => t.1.Tiled) x) {result : Except MemoryError α}
    (hon : w.onHeap id x = some (result, v)) : v.Orderly := by
  obtain ⟨h, hid, rfl⟩ := Workspace.onHeap_eq_some hon
  exact hw.putHeap id (hx.reached (s := (h, w.arena)) (hw.tiled id h hid))

theorem onStack {α : Type} (hw : w.Orderly) {id : Nat} {x : StackM α}
    (hx : Preserves (fun t : Stack × Arena => t.1.Regular) x) {result : Except Fault α}
    (hon : w.onStack id x = some (result, v)) : v.Orderly := by
  obtain ⟨t, hid, rfl⟩ := Workspace.onStack_eq_some hon
  exact hw.putStack id (hx.reached (s := (t, w.arena)) (hw.regular id t hid))

end Holdings.Orderly

/-! ### Sessions -/

/-- The table of the heap goes on tiling it, whatever the host does. -/
theorem Runner.keeps_tiled {σ : Type} (r : Runner σ) : r.Keeps fun m => m.heap.Tiled := by
  have honStack {α : Type} (x : StackM α) :
      Preserves (fun m : Machine σ => m.heap.Tiled) (Exec.onStack x) :=
    .of_reached fun m hm => by rwa [Exec.reached_onStack]
  have honHeap {α : Type} {x : HeapM α} (hx : Preserves (fun t : Heap × Arena => t.1.Tiled) x) :
      Preserves (fun m : Machine σ => m.heap.Tiled) (Exec.onHeap x) := by
    refine .of_reached fun m hm => ?_
    rw [Exec.reached_onHeap]
    exact hx.reached (s := (m.heap, m.arena)) hm
  have honHost {α : Type} (x : HostM σ α) :
      Preserves (fun m : Machine σ => m.heap.Tiled) (Exec.onHost x) :=
    .of_reached fun m hm => by rwa [Exec.reached_onHost]
  exact ⟨fun _ _ hm => hm, fun _ => honStack _, honStack _, honStack _,
    fun size => honHeap (Heap.preserves_malloc_tiled size),
    fun dst src length => honHeap (Heap.preserves_copyIn_tiled dst src length),
    fun _ _ => honHost _, fun _ _ => honHost _, fun _ => honHost _, fun _ => honHost _⟩

namespace Session

variable {γ : Type} {s t : Session} {T U : Set Name}

theorem orderly_settle (hs : s.Orderly) {x : Except MemoryError Workspace}
    (hx : ∀ w, x = .ok w → w.Orderly) : (s.settle x).Orderly := by
  cases x with
  | error e => exact hs
  | ok w => exact hx w rfl

theorem orderly_answer {ε α : Type} (hs : s.Orderly) {x : Option (Except ε α × Workspace)}
    (hx : ∀ result w, x = some (result, w) → w.Orderly) : (s.answer x).Orderly := by
  cases x with
  | none => exact hs
  | some result => exact hx result.1 result.2 rfl

theorem orderly_perform (hs : s.Orderly) (c : Call) : (s.perform c).Orderly := by
  have hw : s.workspace.Orderly := hs
  cases c with
  | newHeap id size => exact orderly_settle hs fun w => hw.newHeap
  | newStack id size => exact orderly_settle hs fun w => hw.newStack
  | loadImage id bytes => exact orderly_settle hs fun w => hw.loadImage
  | enterImage id source entry => exact hw.enterImage id source entry
  | drop n =>
    cases n with
    | heap id => exact hw.dropHeap id
    | stack id => exact hw.dropStack id
    | image id => exact hw.dropImage id
  | onHeap id call =>
    exact orderly_answer hs fun result w => hw.onHeap (Heap.preserves_action_tiled call)
  | onStack id call =>
    exact orderly_answer hs fun result w => hw.onStack (Stack.preserves_action_regular call)
  | direct call => exact ⟨hs.tiled, hs.regular⟩

/-- What the host has in its care stays in order if its services keep it so. -/
theorem keeps_estate {r : Runner (γ × Estate)}
    (hspawn : ∀ (v : Session) g priority name, v.Orderly →
      (v.served g (r.host.spawn r.origin priority name)).Orderly)
    (hbind : ∀ (v : Session) g target entry, v.Orderly →
      (v.served g (r.host.bind target (r.image.enteredAt entry))).Orderly)
    (hdispatch : ∀ (v : Session) g target, v.Orderly →
      (v.served g (r.host.dispatch target)).Orderly)
    (hprint : ∀ (v : Session) g text, v.Orderly →
      (v.served g (r.host.print r.origin text)).Orderly) :
    r.Keeps fun m => m.host.2.Orderly := by
  have honStack {α : Type} (x : StackM α) :
      Preserves (fun m : Machine (γ × Estate) => m.host.2.Orderly) (Exec.onStack x) :=
    .of_reached fun m hm => by rwa [Exec.reached_onStack]
  have honHeap {α : Type} (x : HeapM α) :
      Preserves (fun m : Machine (γ × Estate) => m.host.2.Orderly) (Exec.onHeap x) :=
    .of_reached fun m hm => by rwa [Exec.reached_onHeap]
  have honHost {α : Type} {x : HostM (γ × Estate) α}
      (hx : ∀ (v : Session) g, v.Orderly → (v.served g x).Orderly) :
      Preserves (fun m : Machine (γ × Estate) => m.host.2.Orderly) (Exec.onHost x) := by
    refine .of_reached fun m hm => ?_
    rw [Exec.reached_onHost]
    exact hx { m.host.2 with arena := m.arena } m.host.1 hm
  exact ⟨fun _ _ hm => hm, fun _ => honStack _, honStack _, honStack _, fun _ => honHeap _,
    fun _ _ _ => honHeap _, fun priority name => honHost fun v g => hspawn v g priority name,
    fun target entry => honHost fun v g => hbind v g target entry,
    fun target => honHost fun v g => hdispatch v g target,
    fun text => honHost fun v g => hprint v g text⟩

theorem orderly_run (hs : s.Orderly) {r : Runner (γ × Estate)}
    (hr : r.Keeps fun m => m.host.2.Orderly) (budget cursor : Nat) (g : γ) (heap stack : Nat) :
    (s.run r budget cursor g heap stack).Orderly := by
  rw [Session.run]
  split
  · rename_i h t hh ht
    have hlent : (s.lent heap stack).Orderly :=
      Holdings.Orderly.without (hs.without (.heap heap)) (.stack stack)
    have hhost := (hr.run budget).reached
      (s := ⟨h, t, cursor, s.arena, (g, s.lent heap stack)⟩) hlent
    have htiled := (r.keeps_tiled.run budget).reached
      (s := ⟨h, t, cursor, s.arena, (g, s.lent heap stack)⟩) (hs.tiled heap h hh)
    have hregular := ((r.keeps_shape Stack.isShape_regular).run budget).reached
      (s := ⟨h, t, cursor, s.arena, (g, s.lent heap stack)⟩) (hs.regular stack t ht)
    exact (hhost.putStack stack hregular).putHeap heap htiled
  · exact hs

/-- Every heap and every stack is in order, in all sessions that follow one in order. -/
theorem Reaches.orderly (h : Reaches T s t) (hs : s.Orderly) : t.Orderly := by
  induction h with
  | refl T s => exact hs
  | trans _ _ ihst ihtu => exact ihtu (ihst hs)
  | call s c => exact orderly_perform hs c
  | run s r budget cursor g heap stack image i _ _ _ _ _ _ _ _ _ _ _ _ ihspawn ihbind ihdispatch
      ihprint =>
    exact orderly_run hs (keeps_estate ihspawn ihbind ihdispatch ihprint) budget cursor g heap stack

theorem orderly_opened (capacity limit : Nat) : (opened capacity limit).Orderly :=
  ⟨by simp [opened], by simp [opened]⟩

/-! ### Programs in a session -/

/-- A run that begins in a session, on a heap, a stack and an image of it, wherever the cursor is.
The rest is in the care of its host, whose services are sessions that do not touch the image. -/
structure Begins (s : Session) (r : Runner (γ × Estate)) (heap stack image : Nat) (U : Set Name)
    (m : Machine (γ × Estate)) : Prop where
  onHeap : s.heapTable[heap]? = some m.heap
  onStack : s.stackTable[stack]? = some m.stack
  onImage : ∃ i, s.imageTable[image]? = some i ∧ r.image = i.image
  inArena : m.arena = s.arena
  lends : m.host.2 = s.lent heap stack
  apart : .image image ∉ U
  spawn : ∀ v g priority name, Reaches U v (v.served g (r.host.spawn r.origin priority name))
  bind : ∀ v g target entry,
    Reaches U v (v.served g (r.host.bind target (r.image.enteredAt entry)))
  dispatch : ∀ v g target, Reaches U v (v.served g (r.host.dispatch target))
  print : ∀ v g text, Reaches U v (v.served g (r.host.print r.origin text))

/-- These are the regions of an estate with the image in it, and of others that the program knows
nothing of. Any arena that has them, whatever it has besides, is in order. -/
def Entrusted (image : Nat) (i : LoadedImage) (g : γ × Estate) (others : List (Nat × Nat)) : Prop :=
  g.2.imageTable[image]? = some i ∧
    ∃ frame, others.Perm (g.2.regions ++ (g.2.loose ++ frame)) ∧
      ∀ (mine : List (Nat × Nat)) (a : Arena), a.Owns (mine ++ others) →
        Settled (mine ++ frame) { g.2 with arena := a }

variable {image : Nat} {i : LoadedImage}

theorem Settled.entrusted {own : List (Nat × Nat)} (hs : s.Settled own)
    (hi : s.imageTable[image]? = some i) (g : γ) (frame : List (Nat × Nat)) :
    Entrusted image i (g, s.toEstate) (s.regions ++ (s.loose ++ frame)) := by
  refine ⟨hi, frame, .refl _, fun mine a howns => Workspace.Settled.withArena hs ?_⟩
  refine howns.perm ((List.perm_append_comm_assoc _ _ _).trans ?_)
  exact (List.perm_append_comm_assoc _ _ _).append_left _

/-- A service that acts in the session keeps to what the host has. -/
theorem keeps_entrusted (himage : .image image ∉ U) {α : Type} {x : HostM (γ × Estate) α}
    (hx : ∀ v g, Reaches U v (v.served g x)) :
    Host.Keeps (Entrusted image i) i.image.region x := by
  rintro ⟨g, e⟩ a mine others ⟨hi, frame, -, hsettled⟩ howns
  have hsteps := (hx { e with arena := a } g).steps (mine ++ frame) (hsettled mine a howns)
  obtain ⟨hserved, hundisturbed⟩ := hsteps
  have hfound : e.find? (.image image) = some (.image i) := Option.map_eq_some_iff.2 ⟨i, hi, rfl⟩
  have hkept := (hundisturbed.find _ himage).trans hfound
  obtain ⟨j, hj, heq⟩ := Option.map_eq_some_iff.1 hkept
  obtain rfl : j = i := by simpa using heq
  refine ⟨_, Settled.entrusted hserved hj _ frame, ?_, hundisturbed.frame.limit, ?_⟩
  · refine hserved.owns.perm ((List.perm_append_comm_assoc _ _ _).append_left _ |>.trans ?_)
    exact List.perm_append_comm_assoc _ _ _
  · intro region hregion
    rcases List.mem_cons.1 hregion with rfl | hmine
    · exact (hundisturbed.bytes _ _ himage hfound).bytes _ List.mem_cons_self
    · exact hundisturbed.frame.bytes _ (List.mem_append_left _ hmine)

namespace Begins

variable {r : Runner (γ × Estate)} {heap stack : Nat} {m : Machine (γ × Estate)}

theorem discreet (h : s.Begins r heap stack image U m) (hi : r.image = i.image) :
    r.Discreet (Entrusted image i) where
  shared g others hg := by
    obtain ⟨himage, frame, hperm, -⟩ := hg
    have hblock : i.block ∈ g.2.blocks := Holdings.mem_blocks.2 ⟨image, i, himage, rfl⟩
    rw [hi]
    exact hperm.mem_iff.2 (List.mem_append_left _ (Workspace.region_mem_of_mem_blocks hblock))
  spawn priority name := hi ▸ keeps_entrusted h.apart fun v g => h.spawn v g priority name
  bind target entry := by
    have hkeeps := keeps_entrusted (i := i) h.apart fun v g => h.bind v g target entry
    rwa [← hi] at hkeeps
  dispatch target := hi ▸ keeps_entrusted h.apart fun v g => h.dispatch v g target
  print text := hi ▸ keeps_entrusted h.apart fun v g => h.print v g text

/-- The machine is in order in whatever session the run begins. -/
theorem inPlace (h : s.Begins r heap stack image U m) (hs : s.Settled []) (horderly : s.Orderly)
    (hi : s.imageTable[image]? = some i) : m.InPlace (Entrusted image i) := by
  obtain ⟨hrunning, -⟩ := hs.running (U := U) h.onHeap h.onStack h.inArena h.lends
  have hregular := horderly.regular stack _ h.onStack
  have hestate : Settled (m.stack.regions ++ [m.heap.region]) { m.host.2 with arena := m.arena } :=
    hrunning.settled.reorder (perm_of_lent _ _ _ _)
  have himage : m.host.2.imageTable[image]? = some i := by
    rw [h.lends]
    exact hi
  refine ⟨⟨_, hestate.entrusted himage m.host.1 [], ?_⟩, ?_, horderly.tiled heap _ h.onHeap⟩
  · refine hrunning.settled.owns.perm ?_
    exact (List.perm_append_comm_assoc _ _ _).trans (List.perm_middle.append_left _)
  · exact ⟨hrunning.bounded.top_le, hregular.whole, hrunning.bounded.depth_le, hregular.framed⟩

end Begins

end Session

end BytecodeKernel
