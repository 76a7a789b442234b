import BytecodeKernel.Proofs.Machine.Clients
import BytecodeKernel.Proofs.Machine.Runs
import BytecodeKernel.Proofs.Machine.Workspaces
/-!
Sessions: what happens to one arena over time. Calls create, use and drop objects or go to the arena
directly, and runs of programs use a heap and a stack. The services of the host that runs a program
are again made of such steps. Each step is told by the names it may touch, and leaves the others
undisturbed beside any frame.
-/

namespace BytecodeKernel

/-- The objects in an arena, and the blocks that were taken from it directly. -/
structure Estate extends Holdings where
  loose : List (Nat × Nat) := []

structure Session extends Estate where
  arena : Arena

namespace Session

/-- The session of an arena that is new. -/
def opened (capacity limit : Nat) : Session where
  arena := .withLimit capacity limit

def workspace (s : Session) : Workspace where
  toHoldings := s.toHoldings
  arena := s.arena

/-- The session with another workspace and the same loose blocks. -/
def become (s : Session) (w : Workspace) : Session where
  toHoldings := w.toHoldings
  arena := w.arena
  loose := s.loose

inductive Call where
  | newHeap (id size : Nat)
  | newStack (id size : Nat)
  | loadImage (id : Nat) (bytes : List UInt8)
  | enterImage (id source entry : Nat)
  | drop (n : Name)
  | onHeap (id : Nat) (call : Heap.Call)
  | onStack (id : Nat) (call : Stack.Call)
  | direct (call : Arena.Call)

/-- The object that a call is about. -/
def Call.subject : Call → Set Name
  | newHeap id _ | onHeap id _ => {.heap id}
  | newStack id _ | onStack id _ => {.stack id}
  | loadImage id _ | enterImage id .. => {.image id}
  | drop n => {n}
  | direct _ => ∅

/-- A direct call frees and writes nothing that an object owns. -/
def Call.Proper (s : Session) : Call → Prop
  | direct call => call.KeepsTo s.arena s.loose
  | _ => True

def settle (s : Session) : Except MemoryError Workspace → Session
  | .ok w => s.become w
  | .error _ => s

/-- What an object leaves behind, whether it succeeded or not. -/
def answer {ε α : Type} (s : Session) : Option (Except ε α × Workspace) → Session
  | some (_, w) => s.become w
  | none => s

/-- The session after a call, whether it succeeded or not. -/
def perform (s : Session) : Call → Session
  | .newHeap id size => s.settle (s.workspace.newHeap id size)
  | .newStack id size => s.settle (s.workspace.newStack id size)
  | .loadImage id bytes => s.settle (s.workspace.loadImage id bytes)
  | .enterImage id source entry => s.become (s.workspace.enterImage id source entry)
  | .drop (.heap id) => s.become (s.workspace.dropHeap id)
  | .drop (.stack id) => s.become (s.workspace.dropStack id)
  | .drop (.image id) => s.become (s.workspace.dropImage id)
  | .onHeap id call => s.answer (s.workspace.onHeap id call.action)
  | .onStack id call => s.answer (s.workspace.onStack id call.action)
  | .direct call =>
    { s with loose := call.hold s.arena s.loose, arena := s.arena.perform call }

variable {γ α : Type}

/-- The session after a service of a host that has the estate in its care. -/
def served (s : Session) (g : γ) (x : HostM (γ × Estate) α) : Session :=
  let end_ := reached (x ((g, s.toEstate), s.arena))
  { end_.1.2 with arena := end_.2 }

/-- What the host has in its care during a run. -/
def lent (s : Session) (heap stack : Nat) : Estate :=
  { s.toEstate with
    heapTable := s.heapTable.erase heap
    stackTable := s.stackTable.erase stack }

/-- The session after a run, with the heap and the stack that the run left behind. -/
def returned (m : Machine (γ × Estate)) (heap stack : Nat) : Session :=
  { m.host.2 with
    heapTable := m.host.2.heapTable.insert heap m.heap
    stackTable := m.host.2.stackTable.insert stack m.stack
    arena := m.arena }

/-- The session after a run on one heap and one stack, however it ended. -/
def run (s : Session) (r : Runner (γ × Estate)) (budget cursor : Nat) (g : γ)
    (heap stack : Nat) : Session :=
  match s.heapTable[heap]?, s.stackTable[stack]? with
  | some h, some t =>
    let start := ⟨h, t, cursor, s.arena, (g, s.lent heap stack)⟩
    returned (reached (r.run budget start)) heap stack
  | _, _ => s

/-- From one session to another by steps that touch no more than these names. The image that a run
is on, its heap and its stack are in use, and no service of the host touches them. -/
inductive Reaches : Set Name → Session → Session → Prop where
  | refl (T : Set Name) (s : Session) : Reaches T s s
  | trans {T : Set Name} {s t u : Session} : Reaches T s t → Reaches T t u → Reaches T s u
  | call {T : Set Name} (s : Session) (c : Call) :
      c.Proper s → c.subject ⊆ T → Reaches T s (s.perform c)
  | run {γ : Type} {T U : Set Name} (s : Session) (r : Runner (γ × Estate)) (budget cursor : Nat)
      (g : γ) (heap stack image : Nat) (i : LoadedImage) :
      U ⊆ T → .heap heap ∈ T → .stack stack ∈ T → .heap heap ∉ U → .stack stack ∉ U →
      s.imageTable[image]? = some i → r.image = i.image → .image image ∉ U →
      (∀ v g priority name, Reaches U v (v.served g (r.host.spawn r.origin priority name))) →
      (∀ v g target entry,
        Reaches U v (v.served g (r.host.bind target (r.image.enteredAt entry)))) →
      (∀ v g target, Reaches U v (v.served g (r.host.dispatch target))) →
      (∀ v g text, Reaches U v (v.served g (r.host.print r.origin text))) →
      Reaches T s (s.run r budget cursor g heap stack)

/-! ### Calls -/

variable {frame : List (Nat × Nat)} {T U : Set Name} {s t : Session}

/-- The workspace is in order, with the loose blocks as a part of the frame. -/
def Settled (frame : List (Nat × Nat)) (s : Session) : Prop :=
  s.workspace.Settled (s.loose ++ frame)

/-- A step keeps the session in order, and what it does not touch undisturbed. -/
def Steps (T : Set Name) (frame : List (Nat × Nat)) (s t : Session) : Prop :=
  t.Settled frame ∧ Workspace.Undisturbed T frame s.workspace t.workspace

theorem Settled.steps_refl (hs : s.Settled frame) : Steps T frame s s :=
  ⟨hs, .refl _ _ _⟩

theorem Steps.mono {more : Set Name} (h : Steps T frame s t) (hmore : T ⊆ more) :
    Steps more frame s t :=
  ⟨h.1, h.2.mono hmore fun _ hr => hr⟩

theorem Steps.trans {u : Session} (hst : Steps T frame s t) (htu : Steps T frame t u) :
    Steps T frame s u :=
  ⟨htu.1, hst.2.trans htu.2⟩

theorem steps_become {w : Workspace} (hw : w.Settled (s.loose ++ frame))
    (hundisturbed : Workspace.Undisturbed T (s.loose ++ frame) s.workspace w) :
    Steps T frame s (s.become w) :=
  ⟨hw, hundisturbed.mono subset_rfl fun _ hr => List.mem_append_right _ hr⟩

theorem Settled.steps_settle (hs : s.Settled frame) {x : Except MemoryError Workspace}
    (hx : ∀ w, x = .ok w → w.Settled (s.loose ++ frame) ∧
      Workspace.Undisturbed T (s.loose ++ frame) s.workspace w) :
    Steps T frame s (s.settle x) := by
  cases x with
  | error e => exact hs.steps_refl
  | ok w =>
    obtain ⟨hw, hundisturbed⟩ := hx w rfl
    exact steps_become hw hundisturbed

theorem Settled.steps_answer {ε : Type} (hs : s.Settled frame)
    {x : Option (Except ε α × Workspace)}
    (hx : ∀ result w, x = some (result, w) → w.Settled (s.loose ++ frame) ∧
      Workspace.Undisturbed T (s.loose ++ frame) s.workspace w) :
    Steps T frame s (s.answer x) := by
  cases x with
  | none => exact hs.steps_refl
  | some result =>
    obtain ⟨hw, hundisturbed⟩ := hx result.1 result.2 rfl
    exact steps_become hw hundisturbed

/-- A direct call moves blocks in and out of the loose ones. The rest of the arena is its frame. -/
theorem Settled.steps_direct (hs : s.Settled frame) {call : Arena.Call}
    (hkeeps : call.KeepsTo s.arena s.loose) :
    Steps ∅ frame s (s.perform (.direct call)) := by
  have howns : s.arena.Owns (s.loose ++ (s.regions ++ frame)) :=
    hs.owns.perm (List.perm_append_comm_assoc _ _ _)
  obtain ⟨hafter, hspares⟩ := howns.perform hkeeps
  refine ⟨hs.withArena (hafter.perm (List.perm_append_comm_assoc _ _ _)), ?_⟩
  exact Workspace.undisturbed_of_spares hspares

theorem Settled.steps_perform (hs : s.Settled frame) {c : Call} (hproper : c.Proper s) :
    Steps c.subject frame s (s.perform c) := by
  cases c with
  | newHeap id size => exact hs.steps_settle fun w hw => Workspace.Settled.newHeap hs hw
  | newStack id size => exact hs.steps_settle fun w hw => Workspace.Settled.newStack hs hw
  | loadImage id bytes => exact hs.steps_settle fun w hw => Workspace.Settled.loadImage hs hw
  | enterImage id source entry =>
    obtain ⟨hw, hundisturbed⟩ := Workspace.Settled.enterImage hs id source entry
    exact steps_become hw hundisturbed
  | drop n =>
    cases n with
    | heap id =>
      obtain ⟨hw, hundisturbed, -⟩ := Workspace.Settled.dropHeap hs id
      exact steps_become hw hundisturbed
    | stack id =>
      obtain ⟨hw, hundisturbed, -⟩ := Workspace.Settled.dropStack hs id
      exact steps_become hw hundisturbed
    | image id =>
      obtain ⟨hw, hundisturbed, -⟩ := Workspace.Settled.dropImage hs id
      exact steps_become hw hundisturbed
  | onHeap id call =>
    refine hs.steps_answer fun result w hw => ?_
    exact Workspace.Settled.onHeap hs (fun _ _ => Heap.preserves_action call) hw
  | onStack id call =>
    refine hs.steps_answer fun result w hw => ?_
    exact Workspace.Settled.onStack hs (fun _ _ => Stack.preserves_action call) hw
  | direct call => exact hs.steps_direct hproper

/-! ### Runs -/

/-- The workspace that the host of a machine has in its care. -/
def hosted (m : Machine (γ × Estate)) : Workspace where
  toHoldings := m.host.2.toHoldings
  arena := m.arena

/-- During a run, the regions of the heap and of the stack lie in the frame of the host. -/
structure Running (U : Set Name) (frame : List (Nat × Nat)) (start : Workspace)
    (m : Machine (γ × Estate)) : Prop where
  settled : (hosted m).Settled (m.stack.regions ++ (m.heap.region :: (m.host.2.loose ++ frame)))
  bounded : m.stack.Bounded
  undisturbed : Workspace.Undisturbed U frame start (hosted m)

variable {start : Workspace}

theorem keeps_onStack {x : StackM α} (hx : ∀ others a, Preserves (Stack.Home others a) x) :
    Preserves (Running (γ := γ) U frame start) (Exec.onStack x) := by
  refine .of_reached fun m hm => ?_
  have hhome := (hx _ _).reached (hm.settled.stackHome hm.bounded)
  rw [Exec.reached_onStack]
  refine ⟨hm.settled.ofStackHome hhome, ⟨hhome.top_le, hhome.depth_le⟩, hm.undisturbed.trans ?_⟩
  refine (Workspace.undisturbed_of_spares hhome.spares).mono (Set.empty_subset _) fun r hr => ?_
  exact List.mem_cons_of_mem _ (List.mem_append_right _ hr)

theorem keeps_onHeap {x : HeapM α} (hx : ∀ others a, Preserves (Heap.Home others a) x) :
    Preserves (Running (γ := γ) U frame start) (Exec.onHeap x) := by
  refine .of_reached fun m hm => ?_
  have hswap := hm.settled.reorder List.perm_middle
  have hhome := (hx _ _).reached hswap.heapHome
  have hafter := (hm.settled.ofHeapHome hhome).reorder List.perm_middle.symm
  rw [Exec.reached_onHeap]
  refine ⟨hafter, hm.bounded, hm.undisturbed.trans ?_⟩
  refine (Workspace.undisturbed_of_spares hhome.spares).mono (Set.empty_subset _) fun r hr => ?_
  exact List.mem_append_right _ (List.mem_append_right _ hr)

theorem perm_of_lent (operands rest : List (Nat × Nat)) (region : Nat × Nat)
    (loose : List (Nat × Nat)) :
    (operands ++ (region :: (loose ++ rest))).Perm (loose ++ (operands ++ (region :: rest))) := by
  apply (List.perm_middle.symm.append_left operands).trans
  exact List.perm_append_comm_assoc _ _ _

/-- A service has a frame with the heap and the stack in it. -/
theorem keeps_onHost {x : HostM (γ × Estate) α}
    (hx : ∀ v g others, v.Settled others → Steps U others v (v.served g x)) :
    Preserves (Running U frame start) (Exec.onHost x) := by
  refine .of_reached fun m hm => ?_
  obtain ⟨hserved, hundisturbed⟩ := hx { m.host.2 with arena := m.arena } m.host.1
    (m.stack.regions ++ (m.heap.region :: frame)) (hm.settled.reorder (perm_of_lent _ _ _ _))
  rw [Exec.reached_onHost]
  refine ⟨?_, hm.bounded, hm.undisturbed.trans ?_⟩
  · exact Workspace.Settled.reorder hserved (perm_of_lent _ _ _ _).symm
  · refine hundisturbed.mono subset_rfl fun r hr => ?_
    exact List.mem_append_right _ (List.mem_cons_of_mem _ hr)

/-- The heap and the stack of a run, by name. -/
def inUse (heap stack : Nat) : Set Name :=
  {.heap heap, .stack stack}

/-- To lend a heap and a stack is to begin a run. -/
theorem Settled.running (hs : s.Settled frame) {heap stack : Nat} {m : Machine (γ × Estate)}
    (hheap : s.heapTable[heap]? = some m.heap) (hstack : s.stackTable[stack]? = some m.stack)
    (harena : m.arena = s.arena) (hhost : m.host.2 = s.lent heap stack) :
    Running U frame (hosted m) m ∧
      Workspace.Undisturbed (inUse heap stack) frame s.workspace (hosted m) := by
  have hlent : hosted m = (s.workspace.lend (.heap heap)).lend (.stack stack) := by
    rw [hosted, hhost, harena]
    rfl
  -- First the heap is lent and then the stack, which thereby comes first in the frame.
  have hfirst := Workspace.Settled.lendHeap hs hheap
  have hsecond := hfirst.lendStack hstack
  refine ⟨⟨?_, hs.bounded stack m.stack hstack, .refl _ _ _⟩, ?_⟩
  · rw [hlent, hhost]
    exact hsecond
  · rw [hlent]
    have hone : Workspace.Undisturbed {.heap heap} frame s.workspace _ :=
      Workspace.undisturbed_without (.refl _ _)
    have htwo : Workspace.Undisturbed {.stack stack} frame (s.workspace.lend (.heap heap)) _ :=
      Workspace.undisturbed_without (.refl _ _)
    refine (hone.mono ?_ fun _ hr => hr).trans (htwo.mono ?_ fun _ hr => hr)
    · exact Set.singleton_subset_iff.2 (Set.mem_insert _ _)
    · exact Set.subset_insert _ _

/-- At the end both are put back, since the host left their names free. -/
theorem Running.returned {m : Machine (γ × Estate)} (hm : Running U frame start m)
    {heap stack : Nat} (hheap : (hosted m).find? (.heap heap) = none)
    (hstack : (hosted m).find? (.stack stack) = none) :
    (Session.returned m heap stack).Settled frame ∧
      Workspace.Undisturbed (inUse heap stack) frame (hosted m)
        (Session.returned m heap stack).workspace := by
  have hput := (hm.settled.lend_of_none hstack).putStack hm.bounded
  have hfree : Holdings.find? { (hosted m).toHoldings with
      stackTable := (hosted m).stackTable.insert stack m.stack } (.heap heap) = none := hheap
  refine ⟨(hput.lend_of_none hfree).putHeap, ?_⟩
  have hone : Workspace.Undisturbed {.stack stack} frame (hosted m) _ :=
    Workspace.undisturbed_putStack stack m.stack (.refl _ _)
  have htwo : Workspace.Undisturbed {.heap heap} frame
      { hosted m with stackTable := (hosted m).stackTable.insert stack m.stack } _ :=
    Workspace.undisturbed_putHeap heap m.heap (.refl _ _)
  refine (hone.mono ?_ fun _ hr => hr).trans (htwo.mono ?_ fun _ hr => hr)
  · exact Set.subset_insert _ _
  · exact Set.singleton_subset_iff.2 (Set.mem_insert _ _)

theorem find?_lent_heap (s : Session) (heap stack : Nat) :
    (s.lent heap stack).find? (.heap heap) = none := by
  simp [lent, Holdings.find?]

theorem find?_lent_stack (s : Session) (heap stack : Nat) :
    (s.lent heap stack).find? (.stack stack) = none := by
  simp [lent, Holdings.find?]

/-- What a run keeps is what its stack, its heap and its host keep. -/
theorem keeps_running {r : Runner (γ × Estate)}
    (hspawn : ∀ v g priority name others, v.Settled others →
      Steps U others v (v.served g (r.host.spawn r.origin priority name)))
    (hbind : ∀ v g target entry others, v.Settled others →
      Steps U others v (v.served g (r.host.bind target (r.image.enteredAt entry))))
    (hdispatch : ∀ v g target others, v.Settled others →
      Steps U others v (v.served g (r.host.dispatch target)))
    (hprint : ∀ v g text others, v.Settled others →
      Steps U others v (v.served g (r.host.print r.origin text))) :
    r.Keeps (Running U frame start) where
  cursor _ _ hm := ⟨hm.settled, hm.bounded, hm.undisturbed⟩
  push v := keeps_onStack fun _ _ => Stack.preserves_push v
  pop := keeps_onStack fun _ _ => Stack.preserves_pop
  popFrame := keeps_onStack fun _ _ => Stack.preserves_popFrame
  malloc size := keeps_onHeap fun _ _ => Heap.preserves_malloc size
  copyIn dst src length := keeps_onHeap fun _ _ => Heap.preserves_copyIn dst src length
  spawn priority name := keeps_onHost fun v g => hspawn v g priority name
  bind target entry := keeps_onHost fun v g => hbind v g target entry
  dispatch target := keeps_onHost fun v g => hdispatch v g target
  print text := keeps_onHost fun v g => hprint v g text

theorem Settled.steps_run (hs : s.Settled frame) {r : Runner (γ × Estate)}
    (hr : ∀ start, r.Keeps (Running U frame start)) (budget cursor : Nat) (g : γ)
    {heap stack : Nat} (hheap : .heap heap ∉ U) (hstack : .stack stack ∉ U) :
    Steps (U ∪ inUse heap stack) frame s (s.run r budget cursor g heap stack) := by
  rw [Session.run]
  split
  · rename_i h t hh ht
    obtain ⟨hbegin, hlent⟩ := hs.running (U := U)
      (m := ⟨h, t, cursor, s.arena, (g, s.lent heap stack)⟩) hh ht rfl rfl
    have hend := ((hr _).run budget).reached hbegin
    -- The names of both are still free at the end, for the host does not touch them.
    obtain ⟨hsettled, hback⟩ := hend.returned
      ((hend.undisturbed.find _ hheap).trans (find?_lent_heap s heap stack))
      ((hend.undisturbed.find _ hstack).trans (find?_lent_stack s heap stack))
    refine ⟨hsettled, ?_⟩
    have hinside :=
      hend.undisturbed.mono (Set.subset_union_left (t := inUse heap stack)) fun _ h => h
    have hbefore := hlent.mono (Set.subset_union_right (s := U)) fun _ h => h
    have hafter := hback.mono (Set.subset_union_right (s := U)) fun _ h => h
    exact (hbefore.trans hinside).trans hafter
  · exact hs.steps_refl

/-- What holds of the steps holds of whole sessions, whatever the frame. -/
theorem Reaches.steps (h : Reaches T s t) :
    ∀ frame, s.Settled frame → Steps T frame s t := by
  -- The services of a host are sessions themselves, so their frames vary under the induction.
  induction h with
  | refl T s => exact fun frame hs => hs.steps_refl
  | trans _ _ ihst ihtu =>
    exact fun frame hs => (ihst frame hs).trans (ihtu frame (ihst frame hs).1)
  | call s c hproper hsubset => exact fun frame hs => (hs.steps_perform hproper).mono hsubset
  | run s r budget cursor g heap stack image i hU hheap hstack hheap' hstack' _ _ _ _ _ _ _ ihspawn
      ihbind ihdispatch ihprint =>
    intro frame hs
    have hkeeps (start : Workspace) : r.Keeps (Running _ frame start) :=
      keeps_running ihspawn ihbind ihdispatch ihprint
    apply (hs.steps_run hkeeps budget cursor g hheap' hstack').mono
    apply Set.union_subset hU
    rintro n (rfl | rfl)
    · exact hheap
    · exact hstack

theorem settled_opened (capacity limit : Nat) : (opened capacity limit).Settled [] where
  owns := by
    refine ⟨Arena.sound_withLimit capacity limit, ?_⟩
    rw [show (opened capacity limit).workspace.arena.blocks = .ofSize 1 _ from rfl,
      Blocks.liveBlocks_ofSize]
    exact .nil
  bounded := by simp [opened, workspace]
  loaded := by simp [opened, workspace, Holdings.blocks]
  shared := by simp [opened, workspace, Holdings.blocks]

end Session

end BytecodeKernel
