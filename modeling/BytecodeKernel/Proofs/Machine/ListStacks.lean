import BytecodeKernel.Proofs.Machine.Dealings
import BytecodeKernel.Proofs.Machine.Frames
/-!
A stack as two lists. Whatever the operand region does when it grows, shrinks or cannot, and whether
the frame region is there yet or not, a stack answers as a list of values and a list of at most
`maxFrames` frames do. What it may do that the lists do not is to run short of memory, on a push or
on the opening of a frame, and then nothing at all has changed. This holds use after use, with
anything else going on in the arena in between.
-/

namespace BytecodeKernel

/-- A stack without memory: its operands and its open frames, each with the newest first. -/
structure ListStack where
  operands : List Int64 := []
  frames : List Frame := []
  few : frames.length ≤ maxFrames := by decide

namespace Stack

/-- What a stack can be asked for. -/
inductive Use where
  | push (v : Int64)
  | pop
  | peek
  | snapshot
  | pushFrame (cursor : UInt32)
  | peekFrame
  | popFrame
  | getLocal (index : Nat)
  | setLocal (index : Nat) (v : Int64)

inductive Answer where
  | done
  | value (v : Int64)
  /-- The operands, oldest first. -/
  | values (vs : List Int64)
  | cursor (c : Nat)
deriving DecidableEq

def Use.action : Use → StackM Answer
  | push v => do
    Stack.push v
    return .done
  | pop => return .value (← Stack.pop)
  | peek => return .value (← Stack.peek)
  | snapshot => fun t => .ok (.values (t.1.operands t.2)) t
  | pushFrame cursor => do
    Stack.pushFrame cursor.toNat
    return .done
  | peekFrame => return .cursor (← Stack.peekFrame)
  | popFrame => return .cursor (← Stack.popFrame)
  | getLocal index => return .value (← Stack.getLocal index)
  | setLocal index v => do
    Stack.setLocal index v
    return .done

/-- Whether memory is needed that the stack may not have. -/
def Use.Allocates : Use → Prop
  | push _ | pushFrame _ => True
  | _ => False

end Stack

/-- What the lists answer, and how they are afterwards. -/
def ListStack.use (x : ListStack) : Stack.Use → Except Fault (Stack.Answer × ListStack)
  | .push v => .ok (.done, { x with operands := v :: x.operands })
  | .pop =>
    match x.operands with
    | [] => .error .stackUnderflow
    | v :: rest => .ok (.value v, { x with operands := rest })
  | .peek =>
    match x.operands with
    | [] => .error .stackUnderflow
    | v :: _ => .ok (.value v, x)
  | .snapshot => .ok (.values x.operands.reverse, x)
  | .pushFrame cursor =>
    if h : x.frames.length < maxFrames then
      .ok (.done, { x with frames := .opened cursor :: x.frames, few := h })
    else .error (.frameOverflow maxFrames)
  | .peekFrame =>
    match x.frames.head? with
    | none => .error .frameUnderflow
    | some f => .ok (.cursor f.cursor.toNat, x)
  | .popFrame =>
    match x.frames.head? with
    | none => .error .frameUnderflow
    | some f =>
      .ok (.cursor f.cursor.toNat, { x with
        frames := x.frames.tail
        few := by
          have hfew := x.few
          rw [List.length_tail]
          omega })
  | .getLocal index =>
    if h : index < frameLocals then
      match x.frames.head? with
      | none => .error .frameUnderflow
      | some f => .ok (.value f.locals[index], x)
    else .error (.invalidLocal index)
  | .setLocal index v =>
    if h : index < frameLocals then
      match x.frames.head? with
      | none => .error .frameUnderflow
      | some _ =>
        .ok (.done, { x with
          frames := x.frames.modifyHead fun f => { f with locals := f.locals.set index v }
          few := by
            rw [List.length_modifyHead]
            exact x.few })
    else .error (.invalidLocal index)

namespace Stack

/-- The stack has what the lists have. -/
structure Reflects (x : ListStack) (t : Stack × Arena) : Prop where
  whole : slotSize ∣ t.1.top
  operands : t.1.slots t.2 = x.operands.reverse
  depth : t.1.depth = x.frames.length
  frames : t.1.openFrames t.2 = x.frames

/-- How a use ends that begins with these lists. -/
def Follows (x : ListStack) (use : Use) (t : Stack × Arena)
    (result : EStateM.Result Fault (Stack × Arena) Answer) : Prop :=
  Ends result (fun answer u => ∃ y, x.use use = .ok (answer, y) ∧ Reflects y u)
    fun e u => u = t ∧
      (x.use use = .error e ∨ use.Allocates ∧ (∃ r, x.use use = .ok r) ∧ e.IsShortage)

variable {others : List (Nat × Nat)} {start : Arena} {s : Stack} {a b : Arena} {x : ListStack}
  {region depth index : Nat} {f : Frame} {rest : List Frame}

/-! ### Operands -/

/-- The regions for frames. -/
def frameRegions (s : Stack) : List (Nat × Nat) :=
  s.frames.toList.map fun region => (region, maxFrames * frameSize)

theorem mem_frameRegions (h : s.frames = some region) :
    (region, maxFrames * frameSize) ∈ s.frameRegions := by
  rw [frameRegions, h]
  exact List.mem_singleton_self _

theorem mem_regions_of_frames (h : s.frames = some region) (others : List (Nat × Nat)) :
    (region, maxFrames * frameSize) ∈ s.regions ++ others :=
  List.mem_append_left _ (List.mem_cons_of_mem _ (mem_frameRegions h))

/-- Seen from its operands, the frames of a stack belong to others. -/
theorem Home.carries (hs : Home others start (s, a)) (hwhole : slotSize ∣ s.top) :
    Carries (s.frameRegions ++ others) (s, a) (s.slots a) (s, a) where
  owns := hs.owns
  spares := .refl _ _
  frames := rfl
  depth := rfl
  top_le := hs.top_le
  whole := hwhole
  slots := rfl

theorem Reflects.carries (hs : Home others start (s, a)) (h : Reflects x (s, a)) :
    Carries (s.frameRegions ++ others) (s, a) x.operands.reverse (s, a) :=
  h.operands ▸ hs.carries h.whole

theorem openFrames_of_eq {t : Stack} (hframes : t.frames = s.frames) (hdepth : t.depth = s.depth)
    (a : Arena) : t.openFrames a = s.openFrames a := by
  rw [openFrames, openFrames, hframes, hdepth]

/-- What is done to the operands alone leaves the frames as they are. -/
theorem Reflects.of_carries (hs : Home others start (s, a)) (h : Reflects x (s, a))
    {ys : List Int64} {t : Stack × Arena}
    (ht : Carries (s.frameRegions ++ others) (s, a) ys.reverse t) :
    Reflects { x with operands := ys } t where
  whole := ht.whole
  operands := ht.slots
  depth := ht.depth.trans h.depth
  frames := by
    rw [openFrames_of_eq ht.frames ht.depth]
    cases hframes : s.frames with
    | none =>
      have hold := h.frames
      rw [openFrames_of_frames_eq_none hframes] at hold ⊢
      exact hold
    | some region =>
      have hdepth : s.depth ≤ maxFrames := hs.depth_le
      have hend : s.depth * frameSize ≤ maxFrames * frameSize := Nat.mul_le_mul_right _ hdepth
      refine (openFrames_congr hframes fun x hle hlt => ?_).trans h.frames
      have hmem := List.mem_append_left others (mem_frameRegions hframes)
      exact ht.spares.bytes _ hmem x hle (hlt.trans_le (Nat.add_le_add_left hend _))

theorem Reflects.push (hs : Home others start (s, a)) (h : Reflects x (s, a)) (v : Int64) :
    Follows x (.push v) (s, a) ((Use.push v).action (s, a)) := by
  have hpush := (h.carries hs).push v
  rw [← List.reverse_cons] at hpush
  refine Ends.bind (hpush.weaken (fun _ _ h => h) fun e t ht => ?_) fun _ t ht => ?_
  · exact ⟨ht.2, .inr ⟨trivial, ⟨_, rfl⟩, ht.1⟩⟩
  · exact ⟨_, rfl, h.of_carries hs ht⟩

theorem Reflects.pop (hs : Home others start (s, a)) (h : Reflects x (s, a)) :
    Follows x .pop (s, a) (Use.pop.action (s, a)) := by
  have hcarries := h.carries hs
  cases hoperands : x.operands with
  | nil =>
    rw [hoperands, List.reverse_nil] at hcarries
    have hpop := hcarries.pop_nil
    simp only [Use.action, bind, EStateM.bind, hpop]
    exact ⟨rfl, .inl (by rw [ListStack.use, hoperands])⟩
  | cons v rest =>
    rw [hoperands, List.reverse_cons] at hcarries
    refine Ends.bind (hcarries.pop.weaken (fun _ _ h => h) fun _ _ h => h.elim) ?_
    rintro w t ⟨rfl, ht⟩
    exact ⟨_, by rw [ListStack.use, hoperands], h.of_carries hs ht⟩

theorem Reflects.peek (hs : Home others start (s, a)) (h : Reflects x (s, a)) :
    Follows x .peek (s, a) (Use.peek.action (s, a)) := by
  have hcarries := h.carries hs
  cases hoperands : x.operands with
  | nil =>
    rw [hoperands, List.reverse_nil] at hcarries
    have hpeek := hcarries.peek_nil
    simp only [Use.action, bind, EStateM.bind, hpeek]
    exact ⟨rfl, .inl (by rw [ListStack.use, hoperands])⟩
  | cons v rest =>
    rw [hoperands, List.reverse_cons] at hcarries
    have hpeek := hcarries.peek
    simp only [Use.action, bind, EStateM.bind, hpeek]
    exact ⟨x, by rw [ListStack.use, hoperands], h⟩

theorem Reflects.operands_eq (hs : Home others start (s, a)) (h : Reflects x (s, a)) :
    s.operands a = x.operands.reverse :=
  (operands_eq_slots hs.top_le hs.owns List.mem_cons_self).trans h.operands

theorem Reflects.snapshot (hs : Home others start (s, a)) (h : Reflects x (s, a)) :
    Follows x .snapshot (s, a) (Use.snapshot.action (s, a)) :=
  ⟨x, by rw [h.operands_eq hs, ListStack.use], h⟩

/-! ### Frames -/

/-- The newest frame is the last one in the region. -/
theorem Reflects.newest (h : Reflects x (s, a)) (hframes : x.frames = f :: rest) :
    ∃ region depth, s.frames = some region ∧ s.depth = depth + 1 ∧ frameAt region a depth = f ∧
      ({ s with depth } : Stack).openFrames a = rest := by
  have hopen := h.frames.trans hframes
  have hdepth : s.depth = rest.length + 1 := by
    rw [h.depth, hframes]
    rfl
  have hsome : s.frames ≠ none := by
    intro hnone
    rw [openFrames_of_frames_eq_none hnone] at hopen
    contradiction
  obtain ⟨region, hregion⟩ := Option.ne_none_iff_exists'.1 hsome
  rw [openFrames_succ hregion hdepth] at hopen
  obtain ⟨hnewest, hothers⟩ := List.cons.inj hopen
  exact ⟨region, rest.length, hregion, hdepth, hnewest, hothers⟩

theorem Reflects.depth_eq_zero (h : Reflects x (s, a)) (hframes : x.frames = []) :
    s.depth = 0 := by
  rw [h.depth, hframes]
  rfl

theorem Reflects.peekFrame_eq (hs : Home others start (s, a)) (h : Reflects x (s, a)) :
    Stack.peekFrame (s, a) = match x.frames.head? with
      | none => .error .frameUnderflow (s, a)
      | some f => .ok f.cursor.toNat (s, a) := by
  cases hframes : x.frames with
  | nil =>
    simp only [Stack.peekFrame, TenantM.self, bind, EStateM.bind, h.depth_eq_zero hframes]
    rfl
  | cons f rest =>
    obtain ⟨region, depth, hregion, hdepth, rfl, -⟩ := h.newest hframes
    rw [Stack.peekFrame_eq hs.owns hregion (mem_regions_of_frames hregion others) hdepth
      hs.depth_le, ← toNat_cursor_frameAt]
    rfl

theorem Reflects.peekFrame (hs : Home others start (s, a)) (h : Reflects x (s, a)) :
    Follows x .peekFrame (s, a) (Use.peekFrame.action (s, a)) := by
  have hpeek := h.peekFrame_eq hs
  simp only [Use.action, bind, EStateM.bind, hpeek]
  cases hhead : x.frames.head? with
  | none => exact ⟨rfl, .inl (by rw [ListStack.use, hhead])⟩
  | some f => exact ⟨x, by rw [ListStack.use, hhead], h⟩

theorem Reflects.popFrame (hs : Home others start (s, a)) (h : Reflects x (s, a)) :
    Follows x .popFrame (s, a) (Use.popFrame.action (s, a)) := by
  have hpeek := h.peekFrame_eq hs
  simp only [Use.action, Stack.popFrame, bind, EStateM.bind, hpeek]
  cases hframes : x.frames with
  | nil => exact ⟨rfl, .inl (by simp [ListStack.use, hframes])⟩
  | cons f rest =>
    obtain ⟨region, depth, -, hdepth, -, hopen⟩ := h.newest hframes
    refine ⟨_, by simp only [ListStack.use, hframes, List.head?_cons]; rfl, ?_⟩
    have hlength : s.depth - 1 = rest.length := by
      rw [h.depth, hframes]
      rfl
    refine ⟨h.whole, h.operands, ?_, ?_⟩
    · exact hlength
    · simp only [hdepth, Nat.add_sub_cancel]
      exact hopen

/-- The operands do not lie where the frames do. -/
theorem Home.apart (hs : Home others start (s, a)) (hframes : s.frames = some region) :
    s.base + s.size ≤ region ∨ region + maxFrames * frameSize ≤ s.base :=
  hs.owns.disjoint_head _ (List.mem_append_left others (mem_frameRegions hframes))

/-- What is written to the frames is not seen in the operands. -/
theorem Home.slots_frames (hs : Home others start (s, a)) (hframes : s.frames = some region)
    (h : ∀ x, x < region ∨ region + maxFrames * frameSize ≤ x → b.store.get x = a.store.get x) :
    s.slots b = s.slots a := by
  have hapart := hs.apart hframes
  have htop : s.top ≤ s.size := hs.top_le
  exact slots_congr fun x hle hlt => h x (by omega)

/-- The frame region is there, taken now if it was not before. Or there is no room for it. -/
theorem Reflects.frameRegion (hs : Home others start (s, a)) (h : Reflects x (s, a)) :
    Ends (Stack.frameRegion (s, a))
      (fun region t => Home others start t ∧ Reflects x t ∧ t.1.frames = some region ∧
        t.1.depth = s.depth)
      (fun e t => e.IsShortage ∧ t = (s, a)) := by
  rw [Stack.frameRegion]
  refine TenantM.ends_self ?_
  cases hframes : s.frames with
  | some region => exact ⟨hs, h, hframes, rfl⟩
  | none =>
    refine Ends.bind (Q := fun region t => t.1 = s ∧ t.2.store = a.store ∧
      Home others start ({ s with frames := some region }, t.2))
      (TenantM.ends_onArena (fun region b hallocate => ?_) fun e he => ?_) ?_
    · obtain ⟨howns, hstore, hlimit⟩ := hs.owns.allocate hallocate
      have hspares := hs.spares.trans (Arena.spares_of_store_eq hlimit hstore _)
      have hregions : s.regions = [s.operandRegion] := by simp [regions, hframes]
      simp only [hregions] at howns
      exact ⟨rfl, hstore, howns.perm (List.Perm.swap _ _ _), hspares, hs.top_le, hs.depth_le⟩
    · exact ⟨Arena.isShortage_of_allocate (by decide) he, rfl⟩
    · rintro region ⟨t, b⟩ ⟨ht, hstore, hhome⟩
      obtain rfl : s = t := ht.symm
      have hnone : x.frames = [] := by
        rw [← h.frames]
        exact openFrames_of_frames_eq_none hframes
      have hdepth := h.depth_eq_zero hnone
      refine ⟨hhome, ⟨h.whole, ?_, h.depth, ?_⟩, rfl, rfl⟩
      · exact (slots_congr fun _ _ _ => by rw [hstore]).trans h.operands
      · rw [hnone]
        exact openFrames_of_depth_eq_zero hdepth

/-- A frame is opened behind the others. -/
theorem Reflects.withFrame (hs : Home others start (s, a)) (h : Reflects x (s, a))
    (hframes : s.frames = some region) (hdepth : s.depth < maxFrames) (cursor : UInt32)
    (hfew : (Frame.opened cursor :: x.frames).length ≤ maxFrames) :
    Reflects { x with frames := .opened cursor :: x.frames, few := hfew }
      ({ s with depth := s.depth + 1 },
        Stack.withFrame a (region + s.depth * frameSize) cursor) where
  whole := h.whole
  operands := by
    refine (hs.slots_frames hframes fun x hx => ?_).trans h.operands
    have hend := frame_end_le hdepth
    exact get_withFrame a cursor (by omega)
  depth := congrArg (· + 1) h.depth
  frames := by
    refine (openFrames_withFrame hframes cursor).trans ?_
    rw [show s.openFrames a = x.frames from h.frames]

theorem Reflects.pushFrame (hs : Home others start (s, a)) (h : Reflects x (s, a))
    (cursor : UInt32) :
    Follows x (.pushFrame cursor) (s, a) ((Use.pushFrame cursor).action (s, a)) := by
  by_cases hfull : maxFrames ≤ s.depth
  · have hlength : ¬ x.frames.length < maxFrames := by
      rw [← h.depth]
      exact Nat.not_lt.2 hfull
    simp only [Use.action, Stack.pushFrame, TenantM.self, bind, EStateM.bind, if_pos hfull,
      run_throw]
    exact ⟨rfl, .inl (dif_neg hlength)⟩
  · have hdepth := Nat.not_le.1 hfull
    have hlength : x.frames.length < maxFrames := by
      rw [← h.depth]
      exact hdepth
    have hanswer : x.use (.pushFrame cursor) = .ok (.done,
        { x with frames := .opened cursor :: x.frames, few := hlength }) := dif_pos hlength
    refine Ends.bind (Q := fun _ t => Reflects { x with
        frames := .opened cursor :: x.frames, few := hlength } t) ?_ fun _ t ht =>
      ⟨_, hanswer, ht⟩
    rw [Stack.pushFrame]
    refine TenantM.ends_self ?_
    rw [if_neg hfull]
    refine Ends.bind ((h.frameRegion hs).weaken (fun _ _ h => h) fun e t ht => ?_) ?_
    · exact ⟨ht.2, .inr ⟨trivial, ⟨_, hanswer⟩, ht.1⟩⟩
    rintro region ⟨t, b⟩ ⟨hhome, ht, hframes, hsame⟩
    have hmem := mem_regions_of_frames hframes others
    have hend := frame_end_le hdepth
    have hslot := frameSlot_eq hhome.owns hframes hmem hdepth (Nat.zero_le _)
    rw [Nat.zero_mul, Nat.add_zero] at hslot
    have hrange : b.InRange (region + s.depth * frameSize) frameSize := by
      refine hhome.owns.inRange hmem (Nat.le_add_right _ _) ?_
      show region + s.depth * frameSize + frameSize ≤ region + maxFrames * frameSize
      omega
    refine Ends.of_ok hslot ?_
    refine Ends.of_ok (TenantM.updateArena_of_ok (Arena.write_replicate hrange 0)) ?_
    have hslots : slotSize ≤ frameSize := by decide
    refine Ends.of_ok (TenantM.updateArena_of_ok (setSlot_eq ?_ _)) ?_
    · exact (hrange.shorter hslots).withStore _
    have hsame : t.depth = s.depth := hsame
    have hopened := ht.withFrame hhome hframes (hsame ▸ hdepth) cursor hlength
    rw [hsame] at hopened
    exact hopened

theorem localSlot_eq (hs : Home others start (s, a)) (hindex : index < frameLocals)
    (hregion : s.frames = some region) (hdepth : s.depth = depth + 1) :
    localSlot index (s, a) =
      .ok (region + (depth * frameSize + (1 + index) * slotSize)) (s, a) := by
  have hle : s.depth ≤ maxFrames := hs.depth_le
  have hslot : frameSlot depth (1 + index) (s, a) =
      .ok (region + (depth * frameSize + (1 + index) * slotSize)) (s, a) :=
    frameSlot_eq hs.owns hregion (mem_regions_of_frames hregion others) (by omega) (by omega)
  simp only [localSlot, if_neg (Nat.not_le.2 hindex), TenantM.self, bind, EStateM.bind,
    hdepth, Nat.add_one_ne_zero, if_false, Nat.add_sub_cancel, hslot]

theorem localSlot_of_le (hindex : frameLocals ≤ index) :
    localSlot index (s, a) = .error (.invalidLocal index) (s, a) := by
  simp only [localSlot, if_pos hindex, bind, EStateM.bind, run_throw]

theorem Reflects.localSlot_nil (h : Reflects x (s, a)) (hindex : index < frameLocals)
    (hframes : x.frames = []) : localSlot index (s, a) = .error .frameUnderflow (s, a) := by
  simp only [localSlot, if_neg (Nat.not_le.2 hindex), TenantM.self, bind, EStateM.bind,
    h.depth_eq_zero hframes, if_true, run_throw]

/-- The slot of a local of the newest frame lies in the frame region. -/
theorem Home.local_inRange (hs : Home others start (s, a)) (hindex : index < frameLocals)
    (hdepth : s.depth = depth + 1) (region : Nat) :
    region + (depth * frameSize + (1 + index) * slotSize) + slotSize ≤
        region + maxFrames * frameSize := by
  have hle : s.depth ≤ maxFrames := hs.depth_le
  have hopen : s.depth ≠ 0 := by
    rw [hdepth]
    exact Nat.succ_ne_zero depth
  have hend := local_end_le hopen hle hindex
  simp only [hdepth, Nat.add_sub_cancel] at hend
  omega

theorem Reflects.getLocal (hs : Home others start (s, a)) (h : Reflects x (s, a)) (index : Nat) :
    Follows x (.getLocal index) (s, a) ((Use.getLocal index).action (s, a)) := by
  rcases Nat.lt_or_ge index frameLocals with hindex | hindex
  · cases hframes : x.frames with
    | nil =>
      simp only [Use.action, Stack.getLocal, bind, EStateM.bind, h.localSlot_nil hindex hframes]
      exact ⟨rfl, .inl (by simp [ListStack.use, hindex, hframes])⟩
    | cons f rest =>
      obtain ⟨region, depth, hregion, hdepth, rfl, -⟩ := h.newest hframes
      have hmem := mem_regions_of_frames hregion others
      have hget := hs.owns.getSlot hmem (Nat.le_add_right _ _)
        (hs.local_inRange hindex hdepth region)
      refine Ends.bind (Q := fun v t => v = (frameAt region a depth).locals[index] ∧ t = (s, a))
        (Ends.of_ok (localSlot_eq hs hindex hregion hdepth) ?_) ?_
      · rw [TenantM.ask_of_ok hget]
        exact ⟨by simp [frameAt, slotAt], rfl⟩
      · rintro v t ⟨rfl, rfl⟩
        exact ⟨x, by simp [ListStack.use, hindex, hframes], h⟩
  · simp only [Use.action, Stack.getLocal, bind, EStateM.bind, localSlot_of_le hindex]
    exact ⟨rfl, .inl (dif_neg (Nat.not_lt.2 hindex))⟩

theorem Reflects.setLocal (hs : Home others start (s, a)) (h : Reflects x (s, a)) (index : Nat)
    (v : Int64) :
    Follows x (.setLocal index v) (s, a) ((Use.setLocal index v).action (s, a)) := by
  rcases Nat.lt_or_ge index frameLocals with hindex | hindex
  · cases hframes : x.frames with
    | nil =>
      simp only [Use.action, Stack.setLocal, bind, EStateM.bind, h.localSlot_nil hindex hframes]
      exact ⟨rfl, .inl (by simp [ListStack.use, hindex, hframes])⟩
    | cons f rest =>
      obtain ⟨region, depth, hregion, hdepth, -, -⟩ := h.newest hframes
      have hmem := mem_regions_of_frames hregion others
      have hend := hs.local_inRange hindex hdepth region
      have hrange := hs.owns.inRange hmem (Nat.le_add_right _ _) hend
      refine Ends.bind (Q := fun _ t =>
          t = (s, withSlot a (region + (depth * frameSize + (1 + index) * slotSize)) v))
        (Ends.of_ok (localSlot_eq hs hindex hregion hdepth) ?_) ?_
      · rw [TenantM.updateArena_of_ok (setSlot_eq hrange v)]
        rfl
      · rintro - t rfl
        refine ⟨_, by simp only [ListStack.use, dif_pos hindex, hframes, List.head?_cons]; rfl, ?_⟩
        refine ⟨h.whole, ?_, ?_, ?_⟩
        · refine (hs.slots_frames hregion fun x hx => ?_).trans h.operands
          exact get_withSlot a v (by omega)
        · rw [List.length_modifyHead, ← hframes]
          exact h.depth
        · refine (openFrames_withSlot hregion hdepth hindex v).trans ?_
          exact congrArg _ (h.frames.trans hframes)
  · simp only [Use.action, Stack.setLocal, bind, EStateM.bind, localSlot_of_le hindex]
    exact ⟨rfl, .inl (dif_neg (Nat.not_lt.2 hindex))⟩

/-- Whatever a stack is asked for, it does as the lists do. -/
theorem Reflects.follows (hs : Home others start (s, a)) (h : Reflects x (s, a)) (use : Use) :
    Follows x use (s, a) (use.action (s, a)) := by
  cases use with
  | push v => exact h.push hs v
  | pop => exact h.pop hs
  | peek => exact h.peek hs
  | snapshot => exact h.snapshot hs
  | pushFrame cursor => exact h.pushFrame hs cursor
  | peekFrame => exact h.peekFrame hs
  | popFrame => exact h.popFrame hs
  | getLocal index => exact h.getLocal hs index
  | setLocal index v => exact h.setLocal hs index v

theorem preserves_use (use : Use) : Preserves (Home others start) use.action := by
  cases use with
  | push v => exact .bind (preserves_push v) fun _ => .pure _
  | pop => exact .bind preserves_pop fun _ => .pure _
  | peek => exact .bind preserves_peek fun _ => .pure _
  | snapshot => exact fun _ h => h
  | pushFrame cursor => exact .bind (preserves_pushFrame _) fun _ => .pure _
  | peekFrame => exact .bind preserves_peekFrame fun _ => .pure _
  | popFrame => exact .bind preserves_popFrame fun _ => .pure _
  | getLocal index => exact .bind (preserves_getLocal index) fun _ => .pure _
  | setLocal index v => exact .bind (preserves_setLocal index v) fun _ => .pure _

end Stack

/-! ### Dealings with a stack -/

/-- An entry of the log is as the lists have it, or the stack ran short and nothing happened. -/
inductive ListStack.Takes (x : ListStack) :
    Used Stack.Use (Except Fault Stack.Answer) → ListStack → Prop where
  | answered {use : Stack.Use} {answer : Stack.Answer} {y : ListStack} (before after : Arena) :
      x.use use = .ok (answer, y) → Takes x ⟨use, .ok answer, before, after⟩ y
  | refused {use : Stack.Use} {e : Fault} (a : Arena) :
      x.use use = .error e → Takes x ⟨use, .error e, a, a⟩ x
  | short {use : Stack.Use} {e : Fault} {r : Stack.Answer × ListStack} (a : Arena) :
      use.Allocates → x.use use = .ok r → e.IsShortage → Takes x ⟨use, .error e, a, a⟩ x

namespace Session

/-- Lets a stack of the session be used. -/
def useStack (id : Nat) (w : Workspace) (use : Stack.Use) :
    Option (Except Fault Stack.Answer × Workspace) :=
  w.onStack id use.action

/-- The session has a stack under a number that has what the lists have. -/
def ShowsStack (id : Nat) (x : ListStack) (s : Session) : Prop :=
  ∃ t, s.stackTable[id]? = some t ∧ Stack.Reflects x (t, s.arena)

variable {capacity limit id size : Nat} {T : Set Name} {x : ListStack} {s t : Session}
  {w : Workspace} {log : List (Used Stack.Use (Except Fault Stack.Answer))}

/-- One use is one step of the lists. -/
theorem ShowsStack.useStack (hs : s.Settled []) (hx : ShowsStack id x s) {use : Stack.Use}
    {result : Except Fault Stack.Answer} (huse : useStack id s.workspace use = some (result, w)) :
    Steps Set.univ [] s (s.become w) ∧
      ∃ y, x.Takes ⟨use, result, s.arena, w.arena⟩ y ∧ ShowsStack id y (s.become w) := by
  obtain ⟨hsettled, hundisturbed⟩ :=
    Workspace.Settled.onStack hs (fun _ _ => Stack.preserves_use use) huse
  refine ⟨(steps_become hsettled hundisturbed).mono (Set.subset_univ _), ?_⟩
  obtain ⟨u, hu, hreflects⟩ := hx
  have hhome := (Workspace.Settled.lendStack hs hu).stackHome (Workspace.Settled.bounded hs id u hu)
  have hfollows : Stack.Follows x use (u, s.arena) (use.action (u, s.arena)) :=
    hreflects.follows hhome use
  simp only [Session.useStack, Workspace.onStack, workspace, hu, Option.bind_eq_bind,
    Option.bind_some] at huse
  cases haction : use.action (u, s.arena) with
  | ok answer after =>
    rw [haction] at huse hfollows
    obtain ⟨y, hy, hafter⟩ := hfollows
    cases huse
    refine ⟨y, .answered _ _ hy, after.1, ?_, hafter⟩
    exact Std.TreeMap.getElem?_insert_self
  | error e after =>
    rw [haction] at huse hfollows
    obtain ⟨rfl, hwhy⟩ := hfollows
    cases huse
    refine ⟨x, ?_, u, Std.TreeMap.getElem?_insert_self, hreflects⟩
    rcases hwhy with hrefused | ⟨hallocates, ⟨r, hr⟩, hshort⟩
    · exact .refused _ hrefused
    · exact .short _ hallocates hr hshort

/-- A step of others is not seen in the lists. -/
theorem ShowsStack.untouched (hs : s.Settled []) (hx : ShowsStack id x s) (hid : .stack id ∉ T)
    (h : s.Untouched T t) : ShowsStack id x t := by
  obtain ⟨u, hu, hreflects⟩ := hx
  have hbounded := Workspace.Settled.bounded hs id u hu
  have hfind : s.find? (.stack id) = some (.stack u) := Option.map_eq_some_iff.2 ⟨u, hu, rfl⟩
  have hbytes := h.bytes _ _ hid hfind
  refine ⟨u, ?_, hreflects.whole, ?_, hreflects.depth, ?_⟩
  · obtain ⟨v, hv, heq⟩ := Option.map_eq_some_iff.1 ((h.kept _ hid).trans hfind)
    cases heq
    exact hv
  · refine (Stack.slots_congr fun addr hle hlt => ?_).trans hreflects.operands
    exact hbytes _ List.mem_cons_self addr hle
      (hlt.trans_le (Nat.add_le_add_left hbounded.top_le _))
  · cases hframes : u.frames with
    | none =>
      have hnone := Stack.openFrames_of_frames_eq_none (a := s.arena) hframes
      rw [Stack.openFrames_of_frames_eq_none hframes, ← hnone]
      exact hreflects.frames
    | some region =>
      have hend : u.depth * frameSize ≤ maxFrames * frameSize :=
        Nat.mul_le_mul_right _ hbounded.depth_le
      refine (Stack.openFrames_congr hframes fun addr hle hlt => ?_).trans hreflects.frames
      exact hbytes _ (List.mem_cons_of_mem _ (Stack.mem_frameRegions hframes)) addr hle
        (hlt.trans_le (Nat.add_le_add_left hend _))

theorem showsStack_of_newStack (hw : s.workspace.newStack id size = .ok w) :
    ShowsStack id {} (s.become w) := by
  obtain ⟨⟨u, a⟩, hcreate, hpair⟩ := ok_of_bind hw
  cases hpair
  obtain ⟨⟨base, fresh⟩, -, hpair⟩ := ok_of_bind hcreate
  cases hpair
  refine ⟨_, Std.TreeMap.getElem?_insert_self, Nat.dvd_zero _, ?_, rfl, rfl⟩
  simp [Stack.slots, Stack.length]

/-- A stack is two lists. Whatever it is asked for, and whatever else happens in the arena in
between, its answers are those of the lists, and so are its refusals. Only a push and the opening of
a frame may fail for want of memory besides, and an error changes nothing at all. -/
theorem stack_refines_lists
    (hlimit : (opened capacity limit).arena.limit + 512 < addressLimit)
    (hs : Reaches T (opened capacity limit) s) (hw : s.workspace.newStack id size = .ok w)
    (hlog : Dealings (.stack id) (useStack id) (s.become w) log t) :
    ∃ x, Along ListStack.Takes {} log x ∧
      ∃ u, t.stackTable[id]? = some u ∧ Stack.Reflects x (u, t.arena) ∧
        u.operands t.arena = x.operands.reverse ∧ u.size + 2 * growBytes < addressLimit := by
  have hreached := hs.steps [] (settled_opened capacity limit)
  have hnew := Workspace.Settled.newStack hreached.1 hw
  have hbegun := steps_become hnew.1 hnew.2
  obtain ⟨hend, x, halong, u, hu, hreflects⟩ := hlog.along
    (fun x s use result w hs hx huse => hx.useStack hs huse)
    (fun x s t T hs hid h hx => hx.untouched hs hid h) hbegun.1 (showsStack_of_newStack hw)
  have hhome := (Workspace.Settled.lendStack hend.1 hu).stackHome
    (Workspace.Settled.bounded hend.1 id u hu)
  have hsame : t.arena.limit = (opened capacity limit).arena.limit :=
    hend.2.frame.limit.trans (hbegun.2.frame.limit.trans hreached.2.frame.limit)
  have hlast : t.arena.limit + 2 * growBytes < addressLimit := by
    rw [hsame]
    exact hlimit
  refine ⟨x, halong, u, hu, hreflects, hreflects.operands_eq hhome, ?_⟩
  exact (hend.1.stacks_small hlast (Option.map_eq_some_iff.2 ⟨u, hu, rfl⟩)).2.2

/-! ### A stack beside a heap -/

/-- A heap fills the arena up to what a stack and its frames need. -/
def crowded : Session :=
  (opened 9100 9100).perform (.newHeap 0 300)

def crowdedStack : Session :=
  crowded.settle (crowded.workspace.newStack 0 0)

/-- The sixth push has no room to grow into. -/
def usesBefore : List Stack.Use :=
  [.push 10, .pushFrame 7, .setLocal 3 (-1), .getLocal 16, .push 11, .push 12, .push 13, .push 14,
    .push 15]

def crowdedUses : List (Used Stack.Use (Except Fault Stack.Answer)) × Session :=
  deal (useStack 0) usesBefore crowdedStack

/-- Without the heap there is room. -/
def relieved : Session :=
  crowdedUses.2.perform (.drop (.heap 0))

def usesAfter : List Stack.Use :=
  [.push 15, .getLocal 3, .snapshot, .popFrame, .peekFrame, .pop]

def relievedUses : List (Used Stack.Use (Except Fault Stack.Answer)) × Session :=
  deal (useStack 0) usesAfter relieved

theorem newStack_crowded :
    ∃ w, crowded.workspace.newStack 0 0 = .ok w ∧ crowded.become w = crowdedStack :=
  exists_become_eq_settle crowded (by decide +kernel)

theorem dealings_crowdedStack :
    Dealings (.stack 0) (useStack 0) crowdedStack (crowdedUses.1 ++ relievedUses.1)
      relievedUses.2 := by
  refine (dealings_deal _ _ usesBefore _).append (.others (T := {.heap 0}) (by simp) ?_
    (dealings_deal _ _ usesAfter relieved))
  exact .call _ (.drop (.heap 0)) trivial subset_rfl

/-- What has no room at first goes well when the heap is gone, and nothing was lost meanwhile. -/
theorem stack_refines_lists_of_crowded :
    (opened 9100 9100).arena.limit + 512 < addressLimit ∧
      Reaches {.heap 0} (opened 9100 9100) crowded ∧
      ∃ w, crowded.workspace.newStack 0 0 = .ok w ∧
        Dealings (.stack 0) (useStack 0) (crowded.become w) (crowdedUses.1 ++ relievedUses.1)
          relievedUses.2 ∧
        crowdedUses.1.map (·.result) =
          [.ok .done, .ok .done, .ok .done, .error (.invalidLocal 16), .ok .done, .ok .done,
            .ok .done, .ok .done, .error (.memory (.growthLimit 9396 9100))] ∧
        relievedUses.1.map (·.result) =
          [.ok .done, .ok (.value (-1)), .ok (.values [10, 11, 12, 13, 14, 15]), .ok (.cursor 7),
            .error .frameUnderflow, .ok (.value 15)] ∧
        ∃ x, Along ListStack.Takes {} (crowdedUses.1 ++ relievedUses.1) x ∧
          ∃ u, relievedUses.2.stackTable[0]? = some u ∧
            Stack.Reflects x (u, relievedUses.2.arena) ∧
            u.operands relievedUses.2.arena = x.operands.reverse ∧
            u.size + 2 * growBytes < addressLimit := by
  have hlimit : (opened 9100 9100).arena.limit + 512 < addressLimit := by decide
  have hreaches : Reaches {.heap 0} (opened 9100 9100) crowded :=
    .call _ (.newHeap 0 300) trivial subset_rfl
  obtain ⟨w, hw, hbegun⟩ := newStack_crowded
  have hlog := dealings_crowdedStack
  rw [← hbegun] at hlog
  refine ⟨hlimit, hreaches, w, hw, hlog, by decide +kernel, by decide +kernel, ?_⟩
  exact stack_refines_lists hlimit hreaches hw hlog

end Session

end BytecodeKernel
