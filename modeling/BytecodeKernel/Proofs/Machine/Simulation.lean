import BytecodeKernel.Proofs.Machine.Ideal
import BytecodeKernel.Proofs.Machine.Operands
import BytecodeKernel.Proofs.Machine.Programs
import BytecodeKernel.Proofs.Machine.Shelves
/-!
The machine without memory follows the interpreter. A machine depicts a state if it has the same
cursor, and has the operands, the frames, the texts and the program of that state in its regions of
the arena. An action is mimicked by another if from such a pair both come to such a pair, with the
same result or the same fault, unless the arena has no room for what the program needs.
-/

namespace BytecodeKernel

variable {σ α β H : Type}

/-! ### Parts -/

/-- Whole slots that fit in the region, and as many frames as fit in theirs. -/
structure Stack.InOrder (s : Stack) : Prop where
  top_le : s.top ≤ s.size
  whole : slotSize ∣ s.top
  depth_le : s.depth ≤ maxFrames
  framed : s.depth ≠ 0 → s.frames ≠ none

section Congruence

variable {a c : Arena} {kept : List (Nat × Nat)}

namespace Stack

variable {s : Stack}

theorem slots_of_spares (hs : s.InOrder) (hspares : Arena.Spares kept a c)
    (hmem : s.operandRegion ∈ kept) : s.slots c = s.slots a := by
  refine slots_congr fun x hle hlt => hspares.bytes _ hmem x hle ?_
  exact hlt.trans_le (Nat.add_le_add_left hs.top_le _)

/-- Frames that are spared return to the same cursors. -/
theorem returns_of_spares {t : Stack} (hs : s.InOrder) (hframes : t.frames = s.frames)
    (hdepth : t.depth = s.depth) (hspares : Arena.Spares kept a c)
    (hmem : ∀ region, s.frames = some region → (region, maxFrames * frameSize) ∈ kept) :
    t.returns c = s.returns a := by
  rw [returns, returns, hframes, hdepth]
  cases hregion : s.frames with
  | none => simp only [Option.elim_none]
  | some region =>
    refine congrArg List.reverse (List.map_congr_left fun index hindex => ?_)
    have hend := frame_end_le ((List.mem_range.1 hindex).trans_le hs.depth_le)
    have hslot : slotSize ≤ frameSize := by decide
    have hread : c.store.read (region + index * frameSize) slotSize =
        a.store.read (region + index * frameSize) slotSize := by
      refine ByteStore.read_congr fun x hle hlt => ?_
      have hmem := hmem region hregion
      generalize maxFrames * frameSize = size at hmem hend
      exact hspares.bytes (region, size) hmem x (by omega) (by omega)
    rw [returnOf, returnOf, hread]

end Stack

end Congruence

/-- The shelf stands for block tables that it shows: what is put on it gets the address of the block
that is obtained for it, and the other texts stay where they are. -/
def Shelf.Renders (shelf : Shelf H) (Shows : Blocks → H → Prop) : Prop :=
  ∀ b after x bytes addr, bytes ≠ [] → Shows b x → b.obtain bytes.length = .ok (addr, after) →
    ∃ y, shelf.store bytes x = .ok (addr, y) ∧ Shows after y ∧
      ∀ k, shelf.fetch y k = if k = addr then .ok bytes else shelf.fetch x k

/-- A service that only touches regions of its own. `World` says which they are. -/
def Host.Keeps (World : σ → List (Nat × Nat) → Prop) (shared : Nat × Nat) (x : HostM σ α) : Prop :=
  ∀ s a mine others, World s others → a.Owns (mine ++ others) →
    ∃ others', World (reached (x (s, a))).1 others' ∧
      (reached (x (s, a))).2.Owns (mine ++ others') ∧
      Arena.Spares (shared :: mine) a (reached (x (s, a))).2

/-- A host that has the image among its regions, and leaves it and those of the program alone. -/
structure Runner.Discreet (r : Runner σ) (World : σ → List (Nat × Nat) → Prop) : Prop where
  shared : ∀ s others, World s others → r.image.region ∈ others
  spawn : ∀ priority name,
    Host.Keeps World r.image.region (r.host.spawn r.origin priority name)
  bind : ∀ target entry,
    Host.Keeps World r.image.region (r.host.bind target (r.image.enteredAt entry))
  dispatch : ∀ target, Host.Keeps World r.image.region (r.host.dispatch target)
  print : ∀ text, Host.Keeps World r.image.region (r.host.print r.origin text)

/-- A program under its host, and the setting in which the machine without memory runs it. -/
structure Bridge (σ H : Type) where
  runner : Runner σ
  World : σ → List (Nat × Nat) → Prop
  setting : Ideal.Setting H
  Shows : Blocks → H → Prop
  /-- The requests that were made before. -/
  past : List HostCall
  discreet : runner.Discreet World
  renders : setting.shelf.Renders Shows
  origin : setting.origin = runner.origin
  length : setting.program.length = runner.image.length

/-- All requests were granted. -/
def Granted (log : List Exchange) : Prop :=
  ∀ x ∈ log, ∃ reply, x.reply = .ok reply

/-- The oracle answers as the host did, after what was asked before. -/
def Ideal.Setting.Answers (g : Ideal.Setting H) (past : List HostCall) (log : List Exchange) :
    Prop :=
  ∀ front x, front ++ [x] <+: log → g.oracle (past ++ front.map (·.call)) x.call = x.reply

namespace Bridge

variable (b : Bridge σ H)

/-- The machine is in the given state. -/
structure Depicts (m : Machine (Logged σ)) (i : Ideal H) : Prop where
  lodged : ∃ others, b.World m.host.1 others ∧
    m.arena.Owns (m.stack.regions ++ m.heap.region :: others)
  program : b.runner.image.Holds b.setting.program m.arena
  order : m.stack.InOrder
  tiled : m.heap.Tiled
  cursor : m.cursor = i.cursor
  operands : m.stack.slots m.arena = i.operands.reverse
  returns : m.stack.returns m.arena = i.returns
  shows : b.Shows m.heap.blocks i.heap
  texts : ∀ addr, b.setting.shelf.fetch i.heap addr = m.heap.readBlock m.arena addr
  calls : i.calls = b.past ++ m.host.2.map (·.call)

/-- The machine is in the given state and goes on. -/
structure Going (m : Machine (Logged σ)) (i : Ideal H) : Prop extends b.Depicts m i where
  granted : Granted m.host.2

/-- Both come to the same end, unless there is no room for what the program needs. -/
def Agree (x : EStateM.Result Fault (Machine (Logged σ)) α)
    (y : EStateM.Result Fault (Ideal H) α) : Prop :=
  Ends x (fun v m => ∃ i, y = .ok v i ∧ b.Going m i) fun e m =>
    e.IsShortage ∧ Granted m.host.2 ∨ ∃ i, y = .error e i ∧ b.Depicts m i

structure Mimics (x : Exec (Logged σ) α) (y : IdealM H α) : Prop where
  grows : ∀ m, m.host.2 <+: (reached (x m)).host.2
  agree : ∀ m i, b.Going m i → b.setting.Answers b.past (reached (x m)).host.2 →
    b.Agree (x m) (y i)

end Bridge

theorem Ideal.Setting.Answers.of_beginning {g : Ideal.Setting H} {past : List HostCall}
    {log more : List Exchange} (h : g.Answers past more) (hbegins : log <+: more) :
    g.Answers past log :=
  fun front x hx => h front x (hx.trans hbegins)

variable {b : Bridge σ H}

/-! ### Changes of one part -/

namespace Bridge

variable {m : Machine (Logged σ)} {i : Ideal H} {others : List (Nat × Nat)}

theorem Depicts.withCursor (h : b.Depicts m i) (cursor : Nat) :
    b.Depicts { m with cursor } { i with cursor } :=
  ⟨h.lodged, h.program, h.order, h.tiled, rfl, h.operands, h.returns, h.shows, h.texts, h.calls⟩

/-- The frames of a stack, and what is beside it. -/
def besideOperands (m : Machine (Logged σ)) (others : List (Nat × Nat)) : List (Nat × Nat) :=
  (m.stack.frames.toList.map fun region => (region, maxFrames * frameSize)) ++
    m.heap.region :: others

/-- The stack and its values, beside what others have. -/
theorem Depicts.carries (h : b.Depicts m i) : ∃ others, b.World m.host.1 others ∧
    m.arena.Owns (m.stack.regions ++ m.heap.region :: others) ∧
    Stack.Carries (besideOperands m others) (m.stack, m.arena) i.operands.reverse
      (m.stack, m.arena) := by
  obtain ⟨others, hworld, howns⟩ := h.lodged
  exact ⟨others, hworld, howns, howns, .refl _ _, rfl, rfl, h.order.top_le, h.order.whole,
    h.operands⟩

/-- Other values on the stack. -/
theorem Depicts.withStack (h : b.Depicts m i) (hworld : b.World m.host.1 others)
    (howns : m.arena.Owns (m.stack.regions ++ m.heap.region :: others)) {xs : List Int64}
    {t : Stack × Arena}
    (ht : Stack.Carries (besideOperands m others) (m.stack, m.arena) xs.reverse t) :
    b.Depicts { m with stack := t.1, arena := t.2 } { i with operands := xs } := by
  have hframes : t.1.frames = m.stack.frames := ht.frames
  have hdepth : t.1.depth = m.stack.depth := ht.depth
  have hregions : t.1.regions ++ m.heap.region :: others =
      t.1.operandRegion :: besideOperands m others := by
    rw [Stack.regions, hframes, List.cons_append]
    rfl
  have howns' : t.2.Owns (t.1.regions ++ m.heap.region :: others) := hregions ▸ ht.owns
  have hheap : m.heap.region ∈ besideOperands m others :=
    List.mem_append_right _ List.mem_cons_self
  have himage : b.runner.image.region ∈ besideOperands m others :=
    List.mem_append_right _ (List.mem_cons_of_mem _ (b.discreet.shared _ _ hworld))
  refine ⟨⟨others, hworld, howns'⟩, h.program.of_spares ht.spares himage,
    ⟨ht.top_le, ht.whole, hdepth ▸ h.order.depth_le, ?_⟩, h.tiled, h.cursor, ht.slots, ?_, h.shows,
    fun addr => ?_, h.calls⟩
  · rw [hdepth, hframes]
    exact h.order.framed
  · refine (Stack.returns_of_spares h.order hframes hdepth ht.spares fun region hregion => ?_).trans
      h.returns
    refine List.mem_append_left _ (List.mem_map.2 ⟨region, ?_, rfl⟩)
    simp [hregion]
  · have hspares : Arena.Spares [m.heap.region] m.arena t.2 :=
      ht.spares.subset fun r hr => List.mem_singleton.1 hr ▸ hheap
    have hmem (s : Stack) : m.heap.region ∈ s.regions ++ m.heap.region :: others :=
      List.mem_append_right _ List.mem_cons_self
    exact (h.texts addr).trans
      (Heap.readBlock_congr howns (hmem _) howns' (hmem _) hspares addr).symm

/-- Other texts in the heap. -/
theorem Depicts.withHeap (h : b.Depicts m i) (hworld : b.World m.host.1 others)
    {t : Heap × Arena} (ht : Heap.Home (m.stack.regions ++ others) m.arena t) (htiled : t.1.Tiled)
    {heap : H} (hshows : b.Shows t.1.blocks heap)
    (htexts : ∀ addr, b.setting.shelf.fetch heap addr = t.1.readBlock t.2 addr) :
    b.Depicts { m with heap := t.1, arena := t.2 } { i with heap } := by
  have himage : b.runner.image.region ∈ m.stack.regions ++ others :=
    List.mem_append_right _ (b.discreet.shared _ _ hworld)
  refine ⟨⟨others, hworld, ht.owns.perm List.perm_middle.symm⟩,
    h.program.of_spares ht.spares himage, h.order, htiled, h.cursor, ?_, ?_, hshows, htexts,
    h.calls⟩
  · exact (Stack.slots_of_spares h.order ht.spares
      (List.mem_append_left _ List.mem_cons_self)).trans h.operands
  · refine (Stack.returns_of_spares h.order rfl rfl ht.spares fun region hregion => ?_).trans
      h.returns
    refine List.mem_append_left _ (List.mem_cons_of_mem _ (List.mem_map.2 ⟨region, ?_, rfl⟩))
    simp [hregion]

/-- A request to the host. -/
theorem Depicts.withHost (h : b.Depicts m i)
    (howns : m.arena.Owns (m.stack.regions ++ m.heap.region :: others)) {g : Logged σ} {a : Arena}
    {others' : List (Nat × Nat)} (hworld : b.World g.1 others')
    (howns' : a.Owns (m.stack.regions ++ m.heap.region :: others'))
    (hspares :
      Arena.Spares (b.runner.image.region :: (m.stack.regions ++ [m.heap.region])) m.arena a) :
    b.Depicts { m with host := g, arena := a }
      { i with calls := b.past ++ g.2.map (·.call) } := by
  have hmem (rest : List (Nat × Nat)) : m.heap.region ∈ m.stack.regions ++ m.heap.region :: rest :=
    List.mem_append_right _ List.mem_cons_self
  refine ⟨⟨others', hworld, howns'⟩, h.program.of_spares hspares List.mem_cons_self, h.order,
    h.tiled, h.cursor, ?_, ?_, h.shows, fun addr => ?_, rfl⟩
  · refine (Stack.slots_of_spares h.order hspares ?_).trans h.operands
    exact List.mem_cons_of_mem _ (List.mem_append_left _ List.mem_cons_self)
  · refine (Stack.returns_of_spares h.order rfl rfl hspares fun region hregion => ?_).trans
      h.returns
    refine List.mem_cons_of_mem _ (List.mem_append_left _ (List.mem_cons_of_mem _
      (List.mem_map.2 ⟨region, ?_, rfl⟩)))
    simp [hregion]
  · refine (h.texts addr).trans (Heap.readBlock_congr howns (hmem _) howns' (hmem _) ?_ addr).symm
    refine hspares.subset fun r hr => List.mem_cons_of_mem _ (List.mem_append_right _ hr)

end Bridge

/-! ### Rules -/

namespace Bridge.Mimics

theorem pure (v : α) : b.Mimics (pure v) (pure v) :=
  ⟨fun _ => List.prefix_rfl, fun _ i h _ => ⟨i, rfl, h⟩⟩

theorem throw (e : Fault) : b.Mimics (throw e : Exec (Logged σ) α) (throw e) :=
  ⟨fun _ => List.prefix_rfl, fun _ i h _ => .inr ⟨i, rfl, h.toDepicts⟩⟩

theorem grows_bind {x : Exec (Logged σ) α} {f : α → Exec (Logged σ) β} {g : α → IdealM H β}
    (hf : ∀ v, b.Mimics (f v) (g v)) (m : Machine (Logged σ)) :
    (reached (x m)).host.2 <+: (reached ((x >>= f) m)).host.2 := by
  simp only [Bind.bind, EStateM.bind]
  cases x m with
  | ok v t => exact (hf v).grows t
  | error e t => exact List.prefix_rfl

/-- Two ends that agree, and what is done from there. -/
theorem agree_bind {x : Exec (Logged σ) α} {y : IdealM H α} {f : α → Exec (Logged σ) β}
    {g : α → IdealM H β} {m : Machine (Logged σ)} {i : Ideal H} (hx : b.Agree (x m) (y i))
    (hf : ∀ v, b.Mimics (f v) (g v))
    (hanswers : b.setting.Answers b.past (reached ((x >>= f) m)).host.2) :
    b.Agree ((x >>= f) m) ((y >>= g) i) := by
  simp only [Bind.bind, EStateM.bind] at hanswers ⊢
  cases hres : x m with
  | ok v t =>
    rw [hres] at hx hanswers
    obtain ⟨j, hy, hj⟩ := hx
    rw [hy]
    exact (hf v).agree t j hj hanswers
  | error e t =>
    rw [hres] at hx
    rcases hx with hshort | ⟨j, hy, hj⟩
    · exact .inl hshort
    · rw [hy]
      exact .inr ⟨j, rfl, hj⟩

theorem bind {x : Exec (Logged σ) α} {y : IdealM H α} {f : α → Exec (Logged σ) β}
    {g : α → IdealM H β} (hx : b.Mimics x y) (hf : ∀ v, b.Mimics (f v) (g v)) :
    b.Mimics (x >>= f) (y >>= g) where
  grows m := (hx.grows m).trans (grows_bind hf m)
  agree m i h hanswers :=
    agree_bind (hx.agree m i h (hanswers.of_beginning (grows_bind hf m))) hf hanswers

theorem ite {c : Prop} [Decidable c] {x x' : Exec (Logged σ) α} {y y' : IdealM H α}
    (hx : c → b.Mimics x y) (hx' : ¬ c → b.Mimics x' y') :
    b.Mimics (if c then x else x') (if c then y else y') := by
  split
  · exact hx ‹_›
  · exact hx' ‹_›

/-- An action that looks at the machine as a whole. -/
theorem get_bind {f : Machine (Logged σ) → Exec (Logged σ) α} {y : IdealM H α}
    (hgrows : ∀ n m, m.host.2 <+: (reached (f n m)).host.2)
    (h : ∀ m i, b.Going m i → b.setting.Answers b.past (reached (f m m)).host.2 →
      b.Agree (f m m) (y i)) :
    b.Mimics (get >>= f) y :=
  ⟨fun m => hgrows m m, h⟩

/-- An action that no request is part of. -/
theorem grows_of_host {x : Exec (Logged σ) α} (h : ∀ m, (reached (x m)).host = m.host)
    (m : Machine (Logged σ)) : m.host.2 <+: (reached (x m)).host.2 := by
  simp [h m]

theorem jumpTo (cursor : Nat) : b.Mimics (Exec.jumpTo cursor) (Ideal.jumpTo cursor) :=
  ⟨fun _ => List.prefix_rfl, fun _ _ h _ => ⟨_, rfl, h.toDepicts.withCursor cursor, h.granted⟩⟩

theorem skip (count : Nat) : b.Mimics (Exec.skip count) (Ideal.skip count) := by
  refine ⟨fun _ => List.prefix_rfl, fun m i h _ => ⟨_, rfl, ?_, h.granted⟩⟩
  rw [← h.cursor]
  exact h.toDepicts.withCursor (m.cursor + count)

theorem cursor : b.Mimics Exec.cursor Ideal.at? := by
  refine ⟨fun _ => List.prefix_rfl, fun m i h _ => ⟨i, ?_, h⟩⟩
  rw [h.cursor]
  rfl

/-! ### Operands -/

theorem push (v : Int64) : b.Mimics (Exec.push v) (Ideal.push v) := by
  refine ⟨grows_of_host fun m => by rw [Exec.push, Exec.reached_onStack], fun m i h _ => ?_⟩
  obtain ⟨others, hworld, howns, hcarries⟩ := h.toDepicts.carries
  have hend := hcarries.push v
  rw [← List.reverse_cons] at hend
  simp only [Exec.push, Exec.onStack]
  cases hres : Stack.push v (m.stack, m.arena) with
  | ok w t =>
    rw [hres] at hend
    exact ⟨_, rfl, h.toDepicts.withStack hworld howns hend, h.granted⟩
  | error e t =>
    rw [hres] at hend
    exact .inl ⟨hend.1, h.granted⟩

theorem pop : b.Mimics Exec.pop Ideal.pop := by
  refine ⟨grows_of_host fun m => by rw [Exec.pop, Exec.reached_onStack], fun m i h _ => ?_⟩
  obtain ⟨others, hworld, howns, hcarries⟩ := h.toDepicts.carries
  simp only [Exec.pop, Exec.onStack, Ideal.pop]
  cases hoperands : i.operands with
  | nil =>
    rw [hoperands, List.reverse_nil] at hcarries
    rw [hcarries.pop_nil]
    exact .inr ⟨i, rfl, h.toDepicts⟩
  | cons v rest =>
    rw [hoperands, List.reverse_cons] at hcarries
    have hend := hcarries.pop
    cases hres : Stack.pop (m.stack, m.arena) with
    | ok w t =>
      rw [hres] at hend
      obtain ⟨rfl, hpopped⟩ := hend
      exact ⟨_, rfl, h.toDepicts.withStack hworld howns hpopped, h.granted⟩
    | error e t =>
      rw [hres] at hend
      exact hend.elim

theorem popProcess : b.Mimics Exec.popProcess Ideal.popProcess := by
  refine bind pop fun v => ?_
  cases ProcessId.ofSlot? v with
  | some id => exact pure id
  | none => exact throw _

theorem binary {f g : Int64 → Int64 → Int64} (h : ∀ lhs rhs, f lhs rhs = g lhs rhs) :
    b.Mimics (Exec.binary f) (Ideal.binary g) := by
  refine bind pop fun lhs => bind pop fun rhs => ?_
  rw [h]
  exact push _

theorem compare {p : Int64 → Int64 → Bool} {q : Int64 → Int64 → Prop}
    [∀ lhs rhs, Decidable (q lhs rhs)] (h : ∀ lhs rhs, p lhs rhs = true ↔ q lhs rhs) :
    b.Mimics (Exec.compare p) (Ideal.binary fun lhs rhs => Ideal.truth (q lhs rhs)) := by
  refine binary fun lhs rhs => ?_
  rw [Ideal.truth]
  exact if_congr (h lhs rhs) rfl rfl

theorem divide (offset : Nat) {f g : Int64 → Int64 → Int64}
    (h : ∀ lhs rhs, f lhs rhs = g lhs rhs) :
    b.Mimics (Exec.divide offset f) (Ideal.divide offset g) := by
  refine bind pop fun lhs => bind pop fun rhs => ?_
  rw [h]
  exact ite (fun _ => bind (throw _) fun _ => push _) fun _ => push _

end Bridge.Mimics

/-! ### The program -/

namespace Bridge

variable {m : Machine (Logged σ)} {i : Ideal H}

theorem Depicts.loaded (h : b.Depicts m i) : b.runner.logged.Loaded b.setting.program m := by
  obtain ⟨others, hworld, howns⟩ := h.lodged
  refine ⟨⟨_, List.mem_append_right _ (List.mem_cons_of_mem _ ?_), howns⟩, h.program⟩
  exact b.discreet.shared _ _ hworld

theorem Depicts.depth_eq (h : b.Depicts m i) : m.stack.depth = i.returns.length := by
  rw [← h.returns, Stack.returns]
  cases hframes : m.stack.frames with
  | none =>
    have hdepth : m.stack.depth = 0 := not_not.1 fun hdepth => h.order.framed hdepth hframes
    rw [hdepth, Option.elim_none, List.length_nil]
  | some region => simp

/-- A frame is left for the cursor that it returns to. -/
theorem Depicts.leave {depth target : Nat} {rest : List Nat} (h : b.Depicts m i)
    (hdepth : m.stack.depth = depth + 1) (hreturns : i.returns = target :: rest) :
    Stack.popFrame (m.stack, m.arena) = .ok target ({ m.stack with depth }, m.arena) ∧
      b.Depicts { m with stack := { m.stack with depth }, cursor := target }
        { i with cursor := target, returns := rest } := by
  obtain ⟨others, hworld, howns⟩ := h.lodged
  obtain ⟨region, hframes⟩ := Option.ne_none_iff_exists'.1
    (h.order.framed (hdepth ▸ Nat.succ_ne_zero depth))
  have hregion : (region, maxFrames * frameSize) ∈ m.stack.regions ++ m.heap.region :: others := by
    refine List.mem_append_left _ (List.mem_cons_of_mem _ (List.mem_map.2 ⟨region, ?_, rfl⟩))
    simp [hframes]
  have hnewest := Stack.returns_succ (a := m.arena) hframes hdepth
  rw [h.returns, hreturns] at hnewest
  obtain ⟨rfl, hrest⟩ := List.cons.inj hnewest
  refine ⟨Stack.popFrame_eq howns hframes hregion hdepth h.order.depth_le, ?_⟩
  refine ⟨⟨others, hworld, howns⟩, h.program, ?_, h.tiled, rfl, h.operands, hrest.symm, h.shows,
    h.texts, h.calls⟩
  exact ⟨h.order.top_le, h.order.whole,
    (Nat.le_succ depth).trans (hdepth.symm.le.trans h.order.depth_le),
    fun _ => hframes ▸ Option.some_ne_none region⟩

/-- Frames are left until the cursor is in the program. -/
theorem Depicts.unwind (h : b.Depicts m i) :
    ∃ n, b.runner.logged.unwind m.stack.depth m = .ok () n ∧
      b.Depicts n { i with
        cursor := (Ideal.leave b.setting.program.length i.cursor i.returns).1
        returns := (Ideal.leave b.setting.program.length i.cursor i.returns).2 } ∧
      n.host = m.host := by
  generalize hreturns : i.returns = returns
  induction returns generalizing m i with
  | nil =>
    have hdepth : m.stack.depth = 0 := by rw [h.depth_eq, hreturns, List.length_nil]
    rw [hdepth]
    refine ⟨m, rfl, ?_, rfl⟩
    simpa only [Ideal.leave, ← hreturns] using h
  | cons target rest ih =>
    have hdepth : m.stack.depth = rest.length + 1 := by
      rw [h.depth_eq, hreturns, List.length_cons]
    obtain ⟨hpop, hleft⟩ := h.leave hdepth hreturns
    rw [hdepth, Runner.unwind]
    simp only [Bind.bind, EStateM.bind, Exec.cursor, Runner.image_logged, ← b.length, Ideal.leave]
    by_cases hend : b.setting.program.length ≤ m.cursor
    · rw [if_pos hend, if_pos (h.cursor ▸ hend)]
      obtain ⟨n, hn, hdepicts, hhost⟩ := ih hleft rfl
      refine ⟨n, ?_, hdepicts, hhost⟩
      simp only [EStateM.bind, Exec.onStack, hpop, Exec.jumpTo]
      exact hn
    · rw [if_neg hend, if_neg (h.cursor ▸ hend)]
      refine ⟨m, rfl, ?_, rfl⟩
      simpa only [← hreturns] using h

end Bridge

/-- The bytes at the cursor, if the program has so many. -/
theorem Ideal.Setting.ahead_eq (g : Ideal.Setting H) (o : Opcode) (width : Nat) (i : Ideal H) :
    g.ahead o width i =
      if g.program.length < i.cursor + width then .error (.unexpectedEnd o i.cursor) i
      else .ok ((g.program.drop i.cursor).take width) i := by
  simp only [ahead, Bind.bind, EStateM.bind, at?]
  split <;> rfl

/-- A transcript only grows. -/
theorem keeps_beginning (r : Runner σ) (log : List Exchange) :
    r.logged.Keeps fun m => True ∧ log <+: m.host.2 := by
  refine r.keeps_true.logged (C := fun g => log <+: g.2) ?_ ?_ ?_ ?_ <;> intros <;>
    intro m _ more hmore <;> exact hmore.trans (List.prefix_append _ _)

namespace Bridge.Mimics

theorem grows_of_keeps {x : Exec (Logged σ) α}
    (h : ∀ log, Preserves (fun m : Machine (Logged σ) => True ∧ log <+: m.host.2) x)
    (m : Machine (Logged σ)) : m.host.2 <+: (reached (x m)).host.2 :=
  ((h m.host.2).reached ⟨trivial, List.prefix_rfl⟩).2

theorem operand (o : Opcode) {width : Nat} (hwidth : width ≠ 0) :
    b.Mimics (b.runner.logged.operand o width) (b.setting.operand o width) := by
  refine ⟨grows_of_keeps fun log => (keeps_beginning _ log).operand o width, fun m i h _ => ?_⟩
  rw [h.loaded.operand_eq o hwidth]
  simp only [Ideal.Setting.operand, Bind.bind, EStateM.bind, Ideal.Setting.ahead_eq, ← h.cursor]
  by_cases hend : b.setting.program.length < m.cursor + width
  · rw [if_pos hend, if_pos hend]
    exact .inr ⟨i, rfl, h.toDepicts⟩
  · rw [if_neg hend, if_neg hend]
    refine ⟨_, rfl, ?_, h.granted⟩
    rw [← h.cursor]
    exact h.toDepicts.withCursor _

theorem signedOperand (o : Opcode) {width : Nat} (hwidth : width ≠ 0) :
    b.Mimics (b.runner.logged.signedOperand o width) (b.setting.signedOperand o width) :=
  bind (operand o hwidth) fun _ => pure _

theorem lengthOperand (o : Opcode) :
    b.Mimics (b.runner.logged.lengthOperand o) (b.setting.lengthOperand o) :=
  bind (operand o (by decide)) fun _ => pure _

theorem literal (o : Opcode) (length : Nat) :
    b.Mimics (b.runner.logged.literal o length) (b.setting.literal o length) :=
  ite (fun _ => pure _) fun hlength => operand o hlength

theorem offsetOperand (o : Opcode) {last last' : Int} (hlast : last = last') :
    b.Mimics (b.runner.logged.offsetOperand o last) (b.setting.offsetOperand o last') := by
  refine bind (signedOperand o (by decide)) fun v => ?_
  rw [hlast, Runner.image_logged, ← b.length]
  exact ite (fun _ => pure _) fun _ => throw _

theorem checkCall : b.Mimics b.runner.logged.checkCall b.setting.checkCall := by
  refine bind pop fun v => ?_
  have hword : v.toUInt64.toNat % addressLimit = (v.toInt % 2 ^ 32).toNat := Ideal.low_word v
  have htag : (v.toInt % 2 ^ 32).toNat / 0x1000000 % 256 = (v.toInt % 2 ^ 32).toNat / 2 ^ 24 := by
    have hlt : v.toInt % 2 ^ 32 < 2 ^ 32 := Int.emod_lt_of_pos _ (by decide)
    exact Nat.mod_eq_of_lt (by omega)
  simp only [hword, TaggedWord.address, TaggedWord.tag, htag, Runner.image_logged, ← b.length]
  exact ite (fun _ => throw _) fun _ => pure _

/-! ### Texts -/

theorem fetch (addr : Nat) :
    b.Mimics (get >>= fun m => Exec.ofMemory (m.heap.readBlock m.arena addr))
      (b.setting.fetch addr) := by
  refine get_bind (fun n m => grows_of_keeps (fun log => Runner.preserves_ofMemory _) m)
    fun m i h _ => ?_
  rw [Ideal.Setting.fetch, h.texts addr]
  cases m.heap.readBlock m.arena addr with
  | ok bytes => exact ⟨i, rfl, h⟩
  | error e => exact .inr ⟨i, rfl, h.toDepicts⟩

theorem popText : b.Mimics Runner.popText b.setting.popText := by
  refine bind pop fun v => ?_
  cases Address.ofSlot? v with
  | none =>
    simp only [Ideal.low_word]
    exact throw _
  | some addr => exact ite (fun _ => pure _) fun _ => bind (fetch addr) fun bytes => pure _

/-- A block is taken and filled with bytes of the program. -/
theorem agree_store {m : Machine (Logged σ)} {i : Ideal H} (h : b.Going m i) {offset length : Nat}
    (hlength : length ≠ 0) (hend : offset + length ≤ b.setting.program.length) :
    b.Agree ((do
      let addr ← Exec.onHeap (Heap.malloc length)
      Exec.onHeap do
        let heap ← TenantM.self
        TenantM.updateArena id fun a => heap.copyIn a addr (b.runner.image.base + offset) length
      return addr : Exec (Logged σ) Nat) m)
      (b.setting.store ((b.setting.program.drop offset).take length) i) := by
  obtain ⟨others, hworld, howns⟩ := h.lodged
  have hbeside := howns.perm List.perm_middle
  have himage : b.runner.image.region ∈ m.stack.regions ++ others :=
    List.mem_append_right _ (b.discreet.shared _ _ hworld)
  simp only [Bind.bind, EStateM.bind, Exec.onHeap]
  have hmalloc := Heap.ends_malloc h.tiled hbeside hlength
  cases hres : Heap.malloc length (m.heap, m.arena) with
  | error e t =>
    rw [hres] at hmalloc
    exact .inl ⟨hmalloc, h.granted⟩
  | ok addr t =>
    rw [hres] at hmalloc
    have htaken : Heap.Taken _ _ _ _ _ t := hmalloc
    have hsource : b.runner.image.base + offset + length ≤
        b.runner.image.base + b.runner.image.length := by
      rw [← b.length]
      omega
    obtain ⟨a, hcopy, hhome, htexts⟩ :=
      htaken.copyIn h.tiled hbeside himage (Nat.le_add_right _ _) hsource
    have hsize : ((b.setting.program.drop offset).take length).length = length := by
      rw [List.length_take, List.length_drop]
      omega
    obtain ⟨heap, hstore, hshows, hfetch⟩ := b.renders m.heap.blocks t.1.blocks i.heap
      ((b.setting.program.drop offset).take length) addr
      (List.ne_nil_of_length_pos (by omega)) h.shows (hsize.symm ▸ htaken.obtained)
    have hupdate : TenantM.updateArena id
        (fun a => t.1.copyIn a addr (b.runner.image.base + offset) length) t = .ok () (t.1, a) :=
      TenantM.updateArena_of_ok hcopy
    simp only [TenantM.self, hupdate, Ideal.Setting.store, hstore]
    refine ⟨_, rfl, ?_, h.granted⟩
    refine h.toDepicts.withHeap hworld hhome htaken.tiled hshows fun k => ?_
    rw [hfetch, htexts, h.texts]
    exact congrArg (fun bytes => if k = addr then Except.ok bytes else _) (h.loaded.bytes hend).symm

theorem heapLiteral (o : Opcode) (length : Nat) :
    b.Mimics (b.runner.logged.heapLiteral o length) (b.setting.heapLiteral o length) := by
  refine ite (fun _ => pure _) fun hlength => ?_
  refine ⟨grows_of_keeps fun log => ?_, fun m i h hanswers => ?_⟩
  · have hkeeps := (keeps_beginning b.runner log).heapLiteral o length
    rwa [Runner.heapLiteral, if_neg hlength] at hkeeps
  change b.Agree ((b.runner.logged.locate o m.cursor length >>= _) m) _
  change b.setting.Answers b.past
    (reached ((b.runner.logged.locate o m.cursor length >>= _) m)).host.2 at hanswers
  rw [h.loaded.locate o hlength] at hanswers ⊢
  by_cases hend : b.setting.program.length < m.cursor + length
  · rw [if_pos hend]
    refine .inr ⟨i, ?_, h.toDepicts⟩
    simp only [Bind.bind, EStateM.bind, Ideal.Setting.ahead_eq, ← h.cursor, if_pos hend]
  · rw [if_neg hend, pure_bind] at hanswers ⊢
    have hstore := agree_store h hlength (Nat.not_lt.1 hend)
    have hskip (addr : Nat) : b.Mimics (do Exec.skip length; return addr)
        (do Ideal.skip length; return addr) :=
      bind (skip length) fun _ => pure addr
    have hboth := agree_bind hstore hskip
    simp only [bind_assoc, pure_bind] at hboth
    have hahead : b.setting.ahead o length i =
        .ok ((b.setting.program.drop m.cursor).take length) i := by
      rw [Ideal.Setting.ahead_eq, ← h.cursor, if_neg hend]
    have hideal : (do
        let bytes ← b.setting.ahead o length
        let addr ← b.setting.store bytes
        Ideal.skip length
        return addr) i = (do
        let addr ← b.setting.store ((b.setting.program.drop m.cursor).take length)
        Ideal.skip length
        return addr) i := by
      simp only [Bind.bind, EStateM.bind, hahead]
    rw [hideal]
    exact hboth hanswers

/-! ### Requests -/

/-- The host answers as the oracle does, and touches nothing that the program has. -/
theorem agree_onHost {x : HostM σ α} (hx : Host.Keeps b.World b.runner.image.region x)
    (call : HostCall) (reply : α → Nat) {m : Machine (Logged σ)} {i : Ideal H} (h : b.Going m i)
    (hanswers : b.setting.Answers b.past
      (reached (Exec.onHost (Host.logging call reply x) m)).host.2) :
    Ends (Exec.onHost (Host.logging call reply x) m)
      (fun v n => ∃ j, b.setting.ask call i = .ok (reply v) j ∧ b.Going n j)
      fun e n => ∃ j, b.setting.ask call i = .error e j ∧ b.Depicts n j := by
  obtain ⟨others, hworld, howns⟩ := h.lodged
  have hsplit : m.arena.Owns ((m.stack.regions ++ [m.heap.region]) ++ others) := by
    rwa [List.append_assoc]
  obtain ⟨others', hworld', howns', hspares⟩ := hx _ _ _ _ hworld hsplit
  rw [List.append_assoc] at howns'
  rw [Exec.reached_onHost, Host.reached_logging] at hanswers
  have hanswer := hanswers m.host.2 _ List.prefix_rfl
  rw [← h.calls] at hanswer
  simp only [Exec.onHost, Host.logging, Ideal.Setting.ask, hanswer]
  cases hres : x (m.host.1, m.arena) with
  | ok v t =>
    rw [hres] at hworld' howns' hspares
    refine ⟨_, rfl, ?_, ?_⟩
    · have hend := h.toDepicts.withHost (g := (t.1, m.host.2 ++ [⟨call, .ok (reply v)⟩])) howns
        hworld' howns' hspares
      rwa [List.map_append, ← List.append_assoc, ← h.calls] at hend
    · intro y hy
      rcases List.mem_append.1 hy with hy | hy
      · exact h.granted y hy
      · exact ⟨reply v, List.mem_singleton.1 hy ▸ rfl⟩
  | error e t =>
    rw [hres] at hworld' howns' hspares
    refine ⟨_, rfl, ?_⟩
    have hend := h.toDepicts.withHost (g := (t.1, m.host.2 ++ [⟨call, .error e⟩])) howns
      hworld' howns' hspares
    rwa [List.map_append, ← List.append_assoc, ← h.calls] at hend

theorem grows_logging (call : HostCall) (reply : α → Nat) (x : HostM σ α)
    (m : Machine (Logged σ)) :
    m.host.2 <+: (reached (Exec.onHost (Host.logging call reply x) m)).host.2 := by
  rw [Exec.reached_onHost, Host.reached_logging]
  exact List.prefix_append _ _

/-- A request that is answered with an identity. -/
theorem ask {x : HostM σ Nat} (hx : Host.Keeps b.World b.runner.image.region x) (call : HostCall) :
    b.Mimics (Exec.onHost (Host.logging call id x)) (b.setting.ask call) := by
  refine ⟨grows_logging call id x, fun m i h hanswers => ?_⟩
  exact (agree_onHost hx call id h hanswers).weaken (fun _ _ hj => hj) fun _ _ hj => .inr hj

/-- A request that is granted or not. -/
theorem request {x : HostM σ Unit} (hx : Host.Keeps b.World b.runner.image.region x)
    (call : HostCall) :
    b.Mimics (Exec.onHost (Host.logging call (fun _ => 0) x))
      (b.setting.request call) := by
  refine ⟨grows_logging call _ x, fun m i h hanswers => ?_⟩
  refine (agree_onHost hx call _ h hanswers).weaken ?_ ?_
  · rintro ⟨⟩ n ⟨j, hask, hj⟩
    refine ⟨j, ?_, hj⟩
    simp only [Ideal.Setting.request, Bind.bind, EStateM.bind, hask]
    rfl
  · rintro e n ⟨j, hask, hj⟩
    refine .inr ⟨j, ?_, hj⟩
    simp only [Ideal.Setting.request, Bind.bind, EStateM.bind, hask]

/-! ### Instructions -/

theorem toInt_zero_lt (v : Int64) : 0 < v ↔ 0 < v.toInt := by
  rw [Int64.lt_iff_toInt_lt]
  rfl

/-- One instruction, whichever it is. -/
theorem perform (o : Opcode) (offset : Nat) :
    b.Mimics (b.runner.logged.perform o offset) (b.setting.perform o offset) := by
  have horigin : b.runner.logged.origin = b.setting.origin := b.origin.symm
  cases o with
  | push =>
    exact bind (signedOperand _ (by decide)) fun _ => bind (push _) fun _ => pure _
  | pushLong =>
    exact bind (signedOperand _ (by decide)) fun _ => bind (push _) fun _ => pure _
  | spawn =>
    refine bind (signedOperand _ (by decide)) fun priority => ?_
    refine bind (lengthOperand _) fun length => ?_
    refine bind (literal _ length) fun name => bind ?_ fun child => bind (push _) fun _ => pure _
    rw [← horigin]
    exact ask (b.discreet.spawn _ name) _
  | bindAt =>
    refine bind popProcess fun target => bind (offsetOperand _ ?_) fun entry => ?_
    · rw [Runner.image_logged, ← b.length]
    · exact bind (request (b.discreet.bind target entry) _) fun _ => pure _
  | dispatch =>
    refine bind popProcess fun target => ?_
    exact bind (request (b.discreet.dispatch target) _) fun _ => pure _
  | add => exact bind (binary Ideal.add_eq) fun _ => pure _
  | sub => exact bind (binary Ideal.sub_eq) fun _ => pure _
  | mul => exact bind (binary Ideal.mul_eq) fun _ => pure _
  | div => exact bind (divide offset Ideal.div_eq) fun _ => pure _
  | mod => exact bind (divide offset Ideal.mod_eq) fun _ => pure _
  | shiftLeft => exact bind (binary Ideal.shiftLeft_eq) fun _ => pure _
  | shiftRight => exact bind (binary Ideal.shiftRight_eq) fun _ => pure _
  | logShift => exact bind (binary Ideal.logShift_eq) fun _ => pure _
  | bitAnd | bitOr | bitXor => exact bind (binary fun _ _ => rfl) fun _ => pure _
  | equals => exact bind (compare fun _ _ => beq_iff_eq) fun _ => pure _
  | logAnd =>
    refine bind (compare fun lhs rhs => ?_) fun _ => pure _
    simp only [Bool.and_eq_true, decide_eq_true_eq, toInt_zero_lt]
  | logOr =>
    refine bind (compare fun lhs rhs => ?_) fun _ => pure _
    simp only [Bool.or_eq_true, decide_eq_true_eq, toInt_zero_lt]
  | greater | less =>
    refine bind (compare fun lhs rhs => ?_) fun _ => pure _
    rw [decide_eq_true_eq, Int64.lt_iff_toInt_lt]
  | greaterEq | lessEq =>
    refine bind (compare fun lhs rhs => ?_) fun _ => pure _
    rw [decide_eq_true_eq, Int64.le_iff_toInt_le]
  | bitNot => exact bind pop fun _ => bind (push _) fun _ => pure _
  | storeLocal | loadLocal | deref | arrayRef => exact bind (pure _) fun _ => pure _
  | jump =>
    refine bind (offsetOperand _ ?_) fun _ => bind (jumpTo _) fun _ => pure _
    rw [Runner.image_logged, ← b.length]
  | branch | drop => exact bind pop fun _ => pure _
  | pushText =>
    refine bind (lengthOperand _) fun length => bind (heapLiteral _ length) fun addr => ?_
    exact bind (push _) fun _ => pure _
  | print =>
    refine bind popText fun text => bind ?_ fun _ => pure _
    rw [← horigin]
    exact request (b.discreet.print text) _
  | call => exact bind checkCall fun _ => pure _
  | halt => exact bind pop fun _ => pure _

theorem step : b.Mimics b.runner.logged.step b.setting.step := by
  refine ⟨grows_of_keeps fun log => (keeps_beginning _ log).step, fun m i h hanswers => ?_⟩
  rw [h.loaded.step_eq] at hanswers ⊢
  rw [Ideal.Setting.step_eq, ← h.cursor]
  cases hbyte : b.setting.program[m.cursor]? with
  | none => exact .inr ⟨i, rfl, h.toDepicts⟩
  | some byte =>
    rw [hbyte] at hanswers
    cases ho : Opcode.ofByte? byte with
    | none =>
      simp only [ho]
      exact .inr ⟨i, rfl, h.toDepicts⟩
    | some o =>
      simp only [ho] at hanswers ⊢
      exact (bind (skip 1) fun _ => perform o m.cursor).agree m i h hanswers

/-! ### Runs -/

theorem unwind : b.Mimics (get >>= fun m => b.runner.logged.unwind m.stack.depth)
    b.setting.unwind := by
  refine get_bind (fun n => grows_of_keeps fun log => (keeps_beginning _ log).unwind _)
    fun m i h _ => ?_
  obtain ⟨n, hunwind, hn, hhost⟩ := h.toDepicts.unwind
  rw [hunwind]
  exact ⟨_, rfl, hn, hhost ▸ h.granted⟩

/-- A run of the interpreter is one of the machine without memory. -/
theorem run (budget : Nat) : b.Mimics (b.runner.logged.run budget) (b.setting.run budget) := by
  induction budget with
  | zero =>
    refine get_bind (fun n => grows_of_keeps fun log => .ite (.pure _) (.pure _)) fun m i h _ => ?_
    change b.Agree _ ((if b.setting.program.length ≤ i.cursor ∧ i.returns = [] then
      Pure.pure .finished else Pure.pure .yielded : IdealM H Outcome) i)
    simp only [Runner.image_logged, ← b.length, h.cursor, h.depth_eq, List.length_eq_zero_iff]
    split <;> exact ⟨i, rfl, h⟩
  | succ budget ih =>
    refine bind unwind fun _ => bind cursor fun cursor => ?_
    rw [Runner.image_logged, ← b.length]
    refine ite (fun _ => pure _) fun _ => bind step fun ended => ?_
    cases ended with
    | some outcome => exact pure _
    | none => exact ih

end Bridge.Mimics

end BytecodeKernel
