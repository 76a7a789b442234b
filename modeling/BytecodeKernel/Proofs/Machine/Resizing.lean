import BytecodeKernel.Proofs.Machine.Gauges
import BytecodeKernel.Proofs.Machine.ListStacks
/-!
When a stack resizes. As long as it has room for what it wants, its sizes follow the gauge, whatever
is pushed and whatever else goes on in the arena in between. So a region grows and shrinks by whole
increments, there are at least 28 pushes and pops between two resizes, and as many pops as pushes
bring a fresh stack back to the size it began with, unless that was an increment at most.
-/

namespace BytecodeKernel

/-- There is room for a region of `size` bytes that is to replace one of `old` bytes: in a free
block or, for a larger region, behind all others. -/
def Arena.HasRoom (a : Arena) (old size : Nat) : Prop :=
  size ≤ a.blocks.largestFree ∨ old < size ∧ a.capacity + size ≤ a.limit

instance (a : Arena) (old size : Nat) : Decidable (a.HasRoom old size) :=
  inferInstanceAs (Decidable (_ ∨ _))

namespace Stack

variable {others : List (Nat × Nat)} {start t : Stack × Arena} {s : Stack} {a b c : Arena}
  {xs : List Int64} {v : Int64} {size moved : Nat}

/-! ### A resize that has room -/

theorem resize_eq_of_reserve {grew : Bool} {freed : Arena} (hlt : s.size < size)
    (hreserve : a.reserve size = .ok (grew, b))
    (hmove : b.tryReallocate s.base size = .ok (moved, c)) (hfree : c.free s.base = .ok freed) :
    resize size (s, a) = .ok () ({ s with base := moved, size }, freed) := by
  simp only [resize, TenantM.self, TenantM.onArena, TenantM.updateArena, TenantM.modifySelf, bind,
    EStateM.bind, if_pos hlt, hreserve, hmove, hfree, Except.map]

theorem resize_eq_of_move {freed : Arena} (hle : size ≤ s.size)
    (hmove : a.tryReallocate s.base size = .ok (moved, c)) (hfree : c.free s.base = .ok freed) :
    resize size (s, a) = .ok () ({ s with base := moved, size }, freed) := by
  simp only [resize, TenantM.self, TenantM.onArena, TenantM.updateArena, TenantM.modifySelf, bind,
    EStateM.bind, if_neg (Nat.not_lt.2 hle), hmove, hfree, Except.map]

/-- With room for it, a resize succeeds. -/
theorem exists_resize (ha : a.Owns (s.operandRegion :: others)) (hpos : size ≠ 0)
    (hroom : a.HasRoom s.size size) :
    ∃ base freed, resize size (s, a) = .ok () ({ s with base, size }, freed) := by
  by_cases hlt : s.size < size
  · have hreserve : ∃ grew b, a.reserve size = .ok (grew, b) := by
      rw [Arena.reserve]
      split
      · exact ⟨_, _, rfl⟩
      · have hlimit : a.capacity + size ≤ a.limit := (hroom.resolve_left ‹_›).2
        exact ⟨_, _, if_neg (Nat.not_lt.2 hlimit)⟩
    obtain ⟨grew, b, hreserve⟩ := hreserve
    obtain ⟨hb, -⟩ := ha.reserve hreserve
    obtain ⟨moved, c, hmove⟩ := ha.sound.exists_tryReallocate_of_reserve hpos hreserve
      (hb.mem_iff.2 List.mem_cons_self)
    obtain ⟨freed, hfree, -⟩ := hb.relocate hmove
    exact ⟨moved, freed, resize_eq_of_reserve hlt hreserve hmove hfree⟩
  · have hfits : size ≤ a.blocks.largestFree := hroom.resolve_right fun h => hlt h.1
    obtain ⟨moved, blocks, hallocate⟩ := Blocks.exists_allocate_of_le_largestFree hpos hfits
    have hmove : ∃ moved c, a.tryReallocate s.base size = .ok (moved, c) := by
      rw [ha.sound.tryReallocate_eq (ha.mem_iff.2 List.mem_cons_self), Arena.allocate, hallocate]
      exact ⟨_, _, rfl⟩
    obtain ⟨moved, c, hmove⟩ := hmove
    obtain ⟨freed, hfree, -⟩ := ha.relocate hmove
    exact ⟨moved, freed, resize_eq_of_move (Nat.not_lt.1 hlt) hmove hfree⟩

/-- A resize that succeeds had room. -/
theorem hasRoom_of_resize (h : resize size (s, a) = .ok () t) : a.HasRoom s.size size := by
  by_contra hroom
  obtain ⟨hfull, hlimit⟩ := not_or.1 hroom
  have hfull := Nat.not_le.1 hfull
  by_cases hlt : s.size < size
  · have hbeyond : a.limit < a.capacity + size := by
      by_contra hle
      exact hlimit ⟨hlt, Nat.not_lt.1 hle⟩
    have hreserve : a.reserve size = .error (.growthLimit (a.capacity + size) a.limit) := by
      rw [Arena.reserve, if_neg (Nat.not_le.2 hfull), if_pos hbeyond]
    simp [resize, TenantM.self, TenantM.onArena, bind, EStateM.bind, if_pos hlt, hreserve] at h
  · have hmove : ∃ e, a.tryReallocate s.base size = .error e := by
      rw [Arena.tryReallocate, Arena.allocate, Blocks.allocate_of_largestFree_lt hfull]
      cases a.sizeOf s.base <;> exact ⟨_, rfl⟩
    obtain ⟨e, hmove⟩ := hmove
    simp [resize, TenantM.self, TenantM.onArena, bind, EStateM.bind, if_neg hlt, hmove] at h

/-! ### Pushes and pops that have room -/

/-- There is room for what a push or a pop wants. -/
def Serves (s : Stack) (a : Arena) (shift : Shift) : Prop :=
  ∀ size ∈ s.gauge.wants? shift, a.HasRoom s.size size

/-- A resize that was wanted, and has room, takes place. -/
theorem ends_attempt_resize {g : Gauge} {shift : Shift} {E : Fault → Stack × Arena → Prop}
    (ha : a.Owns (s.operandRegion :: others)) (hpos : size ≠ 0)
    (hwants : g.wants? shift = some size) (hroom : a.HasRoom s.size size)
    (hs : s.gauge = { g with top := g.moved shift }) :
    Ends (TenantM.attempt (resize size) (s, a)) (fun _ t => t.1.gauge = g.turn shift) E := by
  obtain ⟨base, freed, hresize⟩ := exists_resize ha hpos hroom
  rw [TenantM.attempt, hresize]
  show ({ s.gauge with size } : Gauge) = g.turn shift
  rw [hs, Gauge.turn, hwants]
  rfl

theorem Gauge.turn_of_wants_none {g : Gauge} {shift : Shift} (h : g.wants? shift = none) :
    g.turn shift = { g with top := g.moved shift } := by
  rw [turn, h]
  rfl

/-- A push with the headroom before it does not fail, and resizes as the gauge has it. -/
theorem Carries.push_turn (h : Carries others start xs (s, a))
    (hfits : s.top + growHeadroom ≤ s.size) (hroom : s.Serves a (.push v)) :
    Ends (Stack.push v (s, a)) (fun _ t => t.1.gauge = s.gauge.turn (.push v))
      (fun _ _ => False) := by
  have hslot : s.top + slotSize ≤ s.size := by
    simp only [growHeadroom, slotSize] at *
    omega
  obtain ⟨hset, hpushed⟩ := h.write hslot v
  rw [Stack.push]
  refine TenantM.ends_self ?_
  rw [if_neg (Nat.not_lt.2 hslot)]
  refine TenantM.ends_self (Ends.of_ok (h.within h.top_le) ?_)
  refine Ends.of_ok (TenantM.updateArena_of_ok hset) ?_
  refine Ends.of_ok rfl (TenantM.ends_self ?_)
  split
  · rename_i hshort
    have hlt : s.size < s.top + slotSize + growHeadroom := (Nat.sub_lt_iff_lt_add' hslot).1 hshort
    have hwants : s.gauge.wants? (.push v) = some (s.size + growBytes) := if_pos hlt
    exact ends_attempt_resize hpushed.owns (by simp [growBytes]) hwants (hroom _ hwants) rfl
  · rename_i hlong
    have hwants : s.gauge.wants? (.push v) = none :=
      if_neg fun hlt => hlong ((Nat.sub_lt_iff_lt_add' hslot).2 hlt)
    exact (Gauge.turn_of_wants_none hwants).symm

/-- A pop of a value does not fail, and resizes as the gauge has it. -/
theorem Carries.pop_turn (h : Carries others start (xs ++ [v]) (s, a))
    (hroom : s.Serves a .pop) :
    Ends (Stack.pop (s, a)) (fun _ t => t.1.gauge = s.gauge.turn .pop) (fun _ _ => False) := by
  have htop : slotSize ≤ s.top := h.getSlot_top.1
  obtain ⟨size, hsize⟩ : ∃ size, s.size - growBytes = size := ⟨_, rfl⟩
  have hgauge : s.gauge.wants? .pop =
      if slotSize ≤ s.top ∧ s.top - slotSize + 2 * growBytes < s.size ∧ s.initialSize ≤ size then
        some size
      else none := hsize ▸ rfl
  refine (h.ends_pop hsize (M := fun t => t.1.gauge = s.gauge.turn .pop) (fun hdue => ?_)
    fun hdue => ?_).weaken (fun _ _ ht => ht.2) fun _ _ hnot => hnot
  · have hwants : s.gauge.wants? .pop = some size := hgauge.trans (if_pos ⟨htop, hdue⟩)
    have hunused : s.top - slotSize + 2 * growBytes < s.size := hdue.1
    have hleft : size ≠ 0 := by omega
    exact ends_attempt_resize h.below.owns hleft hwants (hroom _ hwants) rfl
  · have hwants : s.gauge.wants? .pop = none := hgauge.trans (if_neg fun hall => hdue hall.2)
    exact (Gauge.turn_of_wants_none hwants).symm

def Shift.use : Shift → Use
  | push v => .push v
  | pop => .pop

/-- Whatever is pushed or popped, the stack resizes as the gauge has it. Only a pop can fail, for
want of a value, and then the gauge does not move. -/
theorem Home.shift {first : Arena} {shift : Shift} (hs : Home others first (s, a))
    (hg : s.gauge.Steady) (hroom : s.Serves a shift) :
    Ends (shift.use.action (s, a)) (fun _ t => t.1.gauge = s.gauge.turn shift)
      (fun _ t => t.1.gauge = s.gauge.turn shift ∧ shift = .pop ∧ s.top = 0) := by
  have hcarries := hs.carries hg.whole
  cases shift with
  | push v =>
    have hpush := hcarries.push_turn hg.headroom hroom
    exact Ends.bind (hpush.weaken (fun _ _ h => h) fun _ _ h => h.elim) fun _ _ ht => ht
  | pop =>
    rcases List.eq_nil_or_concat' (s.slots a) with hnil | ⟨xs, v, hslots⟩
    · rw [hnil] at hcarries
      have htop : s.top = 0 := hcarries.length_eq.trans (Nat.zero_mul _)
      have hwants : s.gauge.wants? .pop = none := if_neg fun h => by
        have hslot : slotSize ≤ s.top := h.1
        simp [htop, slotSize] at hslot
      simp only [Shift.use, Use.action, bind, EStateM.bind, hcarries.pop_nil]
      refine ⟨?_, trivial, htop⟩
      rw [Gauge.turn_of_wants_none hwants]
      simp [gauge, Gauge.moved, htop]
    · rw [hslots] at hcarries
      have hpop := hcarries.pop_turn hroom
      exact Ends.bind (hpop.weaken (fun _ _ h => h) fun _ _ h => h.elim) fun _ _ ht => ht

end Stack

/-! ### Dealings with a stack -/

/-- What came of a push or a pop: the answer, and the stack on either side. -/
structure Shifted where
  answer : Except Fault Stack.Answer
  old : Stack
  new : Stack

namespace Used

/-- The push or the pop changes the size. -/
def Resizes (e : Used Stack.Shift Shifted) : Prop :=
  e.result.new.size ≠ e.result.old.size

instance (e : Used Stack.Shift Shifted) : Decidable e.Resizes :=
  inferInstanceAs (Decidable (_ ≠ _))

/-- No resize that is attempted fails. It is judged on the stack before the push or the pop: where
the top is and what was written there make no difference to a resize. -/
def Granted (e : Used Stack.Shift Shifted) : Prop :=
  ∀ size ∈ e.result.old.gauge.wants? e.use,
    ∃ t, Stack.resize size (e.result.old, e.before) = .ok () t

/-- There is room for what is attempted. -/
def HasRoom (e : Used Stack.Shift Shifted) : Prop :=
  e.result.old.Serves e.before e.use

instance {ε σ : Type} (x : EStateM.Result ε σ Unit) : Decidable (∃ t, x = .ok () t) :=
  match x with
  | .ok () _ => .isTrue ⟨_, rfl⟩
  | .error _ _ => .isFalse (by rintro ⟨_, ⟨⟩⟩)

instance (e : Used Stack.Shift Shifted) : Decidable e.Granted :=
  inferInstanceAs (Decidable (∀ size ∈ e.result.old.gauge.wants? e.use,
    ∃ t, Stack.resize size (e.result.old, e.before) = .ok () t))

instance (e : Used Stack.Shift Shifted) : Decidable e.HasRoom :=
  inferInstanceAs (Decidable (∀ size ∈ e.result.old.gauge.wants? e.use,
    e.before.HasRoom e.result.old.size size))

theorem Granted.hasRoom {e : Used Stack.Shift Shifted} (h : e.Granted) : e.HasRoom := by
  intro size hsize
  obtain ⟨t, ht⟩ := h size hsize
  exact Stack.hasRoom_of_resize ht

end Used

namespace Stack.Gauge

/-- An entry of the log moves the gauge. If there was room it does as it should, and all is answered
but a pop of nothing. -/
structure Takes (g : Gauge) (e : Used Shift Shifted) (g' : Gauge) : Prop where
  old : e.result.old.gauge = g
  new : e.result.new.gauge = g'
  turn : g.Steady → e.HasRoom → g' = g.turn e.use
  answered : g.Steady → e.HasRoom → (e.use = .pop → g.top ≠ 0) → ∃ r, e.result.answer = .ok r

variable {g g' : Gauge} {e : Used Shift Shifted} {log : List (Used Shift Shifted)}

theorem Takes.steady (h : g.Takes e g') (hg : g.Steady) (hroom : e.HasRoom) : g'.Steady := by
  rw [h.turn hg hroom]
  exact hg.turn _

theorem Takes.first (h : g.Takes e g') (hg : g.Steady) (hroom : e.HasRoom) :
    g'.first = g.first := by
  rw [h.turn hg hroom, first_turn]

theorem Takes.resizes_iff (h : g.Takes e g') : e.Resizes ↔ g'.size ≠ g.size := by
  rw [Used.Resizes, ← h.old, ← h.new]
  rfl

/-- With room for all that is attempted, a log runs the gauge. -/
theorem run_of_along (h : Along Takes g log g') (hg : g.Steady) (hroom : ∀ e ∈ log, e.HasRoom) :
    g' = g.run (log.map (·.use)) := by
  induction h with
  | nil => rfl
  | cons hstep _ ih =>
    obtain ⟨hhead, hrest⟩ := List.forall_mem_cons.1 hroom
    rw [ih (hstep.steady hg hhead) hrest, hstep.turn hg hhead]
    rfl

theorem Steady.along (hg : g.Steady) (h : Along Takes g log g') (hroom : ∀ e ∈ log, e.HasRoom) :
    g'.Steady := by
  rw [run_of_along h hg hroom]
  exact hg.run _

/-- All along a log, the gauge is steady. -/
theorem steady_of_along (h : Along Takes g log g') (hg : g.Steady)
    (hroom : ∀ e ∈ log, e.HasRoom) :
    ∀ e ∈ log, e.result.new.gauge.Steady ∧ e.result.new.initialSize = g.first := by
  induction h with
  | nil => exact fun _ h => absurd h List.not_mem_nil
  | cons hstep _ ih =>
    obtain ⟨hhead, hrest⟩ := List.forall_mem_cons.1 hroom
    have hsteady := hstep.steady hg hhead
    have hfirst := hstep.first hg hhead
    refine List.forall_mem_cons.2 ⟨?_, fun e he => ?_⟩
    · rw [hstep.new]
      exact ⟨hsteady, (congrArg first hstep.new).trans hfirst⟩
    · rw [← hfirst]
      exact ih hsteady hrest e he

/-- It takes as many pushes and pops that do not resize as there is ease, less what is left. -/
theorem ease_le_of_along (h : Along Takes g log g') (hg : g.Steady)
    (hroom : ∀ e ∈ log, e.HasRoom) :
    g.ease ≤ g'.ease + log.countP fun e => ¬ e.Resizes := by
  induction h with
  | nil => exact Nat.le_add_right _ _
  | @cons g h' _ e rest hstep _ ih =>
    obtain ⟨hhead, hrest⟩ := List.forall_mem_cons.1 hroom
    have hlater := ih (hstep.steady hg hhead) hrest
    have hturn := hstep.turn hg hhead
    by_cases hresizes : e.Resizes
    · have hchanged := hstep.resizes_iff.1 hresizes
      rw [hturn] at hchanged
      rw [(hg.ease_of_resize hchanged).1]
      exact Nat.zero_le _
    · have hdrop := hg.ease_le e.use
      rw [← hturn] at hdrop
      rw [List.countP_cons_of_pos (by simpa using hresizes)]
      omega

/-- Where no pop finds the stack empty, all is answered. -/
theorem answered_of_along (h : Along Takes g log g') (hg : g.Steady)
    (hroom : ∀ e ∈ log, e.HasRoom)
    (hserved : ∀ before after, log.map (·.use) = before ++ .pop :: after → (g.run before).top ≠ 0) :
    ∀ e ∈ log, ∃ r, e.result.answer = .ok r := by
  intro e he
  obtain ⟨before, after, rfl⟩ := List.append_of_mem he
  simp only [List.forall_mem_append, List.forall_mem_cons] at hroom
  obtain ⟨hbefore, hroomE, -⟩ := hroom
  obtain ⟨g₁, hstart, hrest⟩ := h.exists_of_append
  cases hrest with
  | cons hstep _ =>
    refine hstep.answered (hg.along hstart hbefore) hroomE fun hpop => ?_
    rw [run_of_along hstart hg hbefore]
    refine hserved _ (after.map (·.use)) ?_
    rw [List.map_append, List.map_cons, hpop]

end Stack.Gauge

/-- What the sizes of a stack keep to that began with `first` bytes. -/
structure Hysteresis (first : Nat) (log : List (Used Stack.Shift Shifted)) : Prop where
  initial : ∀ e ∈ log, e.result.new.initialSize = first
  steps : ∀ e ∈ log, ∃ k, e.result.new.size = first + k * growBytes
  headroom : ∀ e ∈ log, e.result.new.top + growHeadroom ≤ e.result.new.size
  slack : ∀ e ∈ log, first < e.result.new.size →
    e.result.new.size - e.result.new.top ≤ 2 * growBytes
  /-- Between any two resizes, with others in between or not. -/
  calm : ∀ before e between f after, log = before ++ e :: (between ++ f :: after) →
    e.Resizes → f.Resizes → 28 ≤ between.countP fun u => ¬ u.Resizes

/-- A resize leaves much ease behind, and the next one needs all of it gone. -/
theorem Stack.Gauge.hysteresis {g g' : Stack.Gauge} {log : List (Used Stack.Shift Shifted)}
    (h : Along Takes g log g') (hg : g.Steady) (hroom : ∀ e ∈ log, e.HasRoom) :
    Hysteresis g.first log := by
  have hsteady := steady_of_along h hg hroom
  refine ⟨fun e he => (hsteady e he).2, fun e he => ?_, fun e he => (hsteady e he).1.headroom,
    fun e he hgrown => ?_, ?_⟩
  · obtain ⟨hsteady, hfirst⟩ := hsteady e he
    rw [← hfirst]
    exact hsteady.steps
  · obtain ⟨hsteady, hfirst⟩ := hsteady e he
    rw [← hfirst] at hgrown
    exact Nat.sub_le_iff_le_add'.2 (hsteady.slack hgrown)
  · rintro before e between f after rfl he hf
    simp only [List.forall_mem_append, List.forall_mem_cons] at hroom
    obtain ⟨hbefore, hroomE, hbetween, hroomF, -⟩ := hroom
    obtain ⟨g₁, hstart, hrest⟩ := h.exists_of_append
    cases hrest with
    | @cons _ g₂ _ _ _ hstepE hrest =>
      obtain ⟨g₃, hmiddle, hlast⟩ := hrest.exists_of_append
      cases hlast with
      | cons hstepF _ =>
        have hsteady₁ := hg.along hstart hbefore
        have hsteady₂ := hstepE.steady hsteady₁ hroomE
        have hsteady₃ := hsteady₂.along hmiddle hbetween
        have hresizesE := hstepE.resizes_iff.1 he
        have hresizesF := hstepF.resizes_iff.1 hf
        rw [hstepE.turn hsteady₁ hroomE] at hresizesE
        rw [hstepF.turn hsteady₃ hroomF] at hresizesF
        have hafter := (hsteady₁.ease_of_resize hresizesE).2
        have hnone := (hsteady₃.ease_of_resize hresizesF).1
        have hspent := ease_le_of_along hmiddle hsteady₂ hbetween
        rw [← hstepE.turn hsteady₁ hroomE] at hafter
        omega

namespace Session

/-- Pushes to a stack of the session, or pops from it. -/
def shiftStack (id : Nat) (w : Workspace) (shift : Stack.Shift) : Option (Shifted × Workspace) := do
  let old ← w.stackTable[id]?
  let (answer, w) ← useStack id w shift.use
  let new ← w.stackTable[id]?
  return (⟨answer, old, new⟩, w)

/-- The session has a stack under a number that has this gauge. -/
def ShowsGauge (id : Nat) (g : Stack.Gauge) (s : Session) : Prop :=
  ∃ t, s.stackTable[id]? = some t ∧ t.gauge = g

variable {capacity limit id size : Nat} {T : Set Name} {g : Stack.Gauge} {s t : Session}
  {w : Workspace} {log : List (Used Stack.Shift Shifted)}

theorem ShowsGauge.shiftStack (hs : s.Settled []) (hg : ShowsGauge id g s) {shift : Stack.Shift}
    {result : Shifted} (hshift : shiftStack id s.workspace shift = some (result, w)) :
    Steps Set.univ [] s (s.become w) ∧
      ∃ g', g.Takes ⟨shift, result, s.arena, w.arena⟩ g' ∧ ShowsGauge id g' (s.become w) := by
  obtain ⟨u, hu, rfl⟩ := hg
  obtain ⟨old, hold, hshift⟩ := Option.bind_eq_some_iff.1 hshift
  obtain rfl : u = old := Option.some.inj (hu.symm.trans hold)
  obtain ⟨⟨answer, v⟩, huse, hshift⟩ := Option.bind_eq_some_iff.1 hshift
  obtain ⟨new, hnew, hpair⟩ := Option.bind_eq_some_iff.1 hshift
  cases hpair
  obtain ⟨hsettled, hundisturbed⟩ :=
    Workspace.Settled.onStack hs (fun _ _ => Stack.preserves_use shift.use) huse
  refine ⟨(steps_become hsettled hundisturbed).mono (Set.subset_univ _), new.gauge, ?_, new, hnew,
    rfl⟩
  have hhome := (Workspace.Settled.lendStack hs hu).stackHome (Workspace.Settled.bounded hs id u hu)
  have hends (hg : u.gauge.Steady) (hroom : u.Serves s.arena shift) := hhome.shift hg hroom
  simp only [useStack, Workspace.onStack, workspace, hu, Option.bind_eq_bind,
    Option.bind_some] at huse
  change _ → _ → Ends (shift.use.action (u, s.arena)) _ _ at hends
  cases haction : shift.use.action (u, s.arena) with
  | ok r after =>
    rw [haction] at huse hends
    cases huse
    obtain rfl : after.1 = new :=
      Option.some.inj (Std.TreeMap.getElem?_insert_self.symm.trans hnew)
    exact ⟨rfl, rfl, hends, fun _ _ _ => ⟨r, rfl⟩⟩
  | error e after =>
    rw [haction] at huse hends
    cases huse
    obtain rfl : after.1 = new :=
      Option.some.inj (Std.TreeMap.getElem?_insert_self.symm.trans hnew)
    refine ⟨rfl, rfl, fun hg hroom => (hends hg hroom).1, fun hg hroom hpop => ?_⟩
    obtain ⟨-, huse, htop⟩ := hends hg hroom
    exact absurd htop (hpop huse)

/-- A step of others is not seen in the gauge. -/
theorem ShowsGauge.untouched (hg : ShowsGauge id g s) (hid : .stack id ∉ T)
    (h : s.Untouched T t) : ShowsGauge id g t := by
  obtain ⟨u, hu, hgauge⟩ := hg
  have hfind : s.find? (.stack id) = some (.stack u) := Option.map_eq_some_iff.2 ⟨u, hu, rfl⟩
  obtain ⟨v, hv, heq⟩ := Option.map_eq_some_iff.1 ((h.kept _ hid).trans hfind)
  cases heq
  exact ⟨u, hv, hgauge⟩

theorem showsGauge_of_newStack (hw : s.workspace.newStack id size = .ok w) :
    ShowsGauge id (.fresh size) (s.become w) := by
  obtain ⟨⟨u, a⟩, hcreate, hpair⟩ := ok_of_bind hw
  cases hpair
  obtain ⟨⟨base, fresh⟩, -, hpair⟩ := ok_of_bind hcreate
  cases hpair
  exact ⟨_, Std.TreeMap.getElem?_insert_self, rfl⟩

/-- Dealings with a stack go along its gauge. -/
theorem Dealings.along_gauge (h : Dealings (.stack id) (shiftStack id) s log t)
    (hs : s.Settled []) (hg : ShowsGauge id g s) :
    ∃ g', Along Stack.Gauge.Takes g log g' ∧ ShowsGauge id g' t :=
  (h.along (fun _ _ _ _ _ hs hg hshift => hg.shiftStack hs hshift)
    (fun _ _ _ _ _ hid huntouched hg => hg.untouched hid huntouched) hs hg).2

/-- Dealings with a fresh stack go along the gauge from how it begins. -/
theorem exists_along_fresh (hs : Reaches T (opened capacity limit) s)
    (hw : s.workspace.newStack id size = .ok w)
    (hlog : Dealings (.stack id) (shiftStack id) (s.become w) log t) :
    ∃ g', Along Stack.Gauge.Takes (.fresh size) log g' ∧ ShowsGauge id g' t := by
  have hreached := hs.steps [] (settled_opened capacity limit)
  have hnew := Workspace.Settled.newStack hreached.1 hw
  exact hlog.along_gauge (steps_become hnew.1 hnew.2).1 (showsGauge_of_newStack hw)

/-- A stack that always gets the size it attempts to have grows and shrinks late: it never has less
than the headroom free, and once it has grown no more than two increments, and right after a resize
it is at least 28 pushes and pops away from the next. -/
theorem stack_hysteresis (hs : Reaches T (opened capacity limit) s)
    (hw : s.workspace.newStack id size = .ok w)
    (hlog : Dealings (.stack id) (shiftStack id) (s.become w) log t)
    (hgranted : ∀ e ∈ log, e.Granted) :
    Hysteresis (max size (growHeadroom + slotSize)) log := by
  obtain ⟨g', halong, -⟩ := exists_along_fresh hs hw hlog
  exact Stack.Gauge.hysteresis halong (Stack.Gauge.steady_fresh size)
    fun e he => (hgranted e he).hasRoom

/-! ### A tide -/

/-- A stack that takes 47 bytes at first. -/
def lowStack : Session :=
  (opened 2048 2048).settle ((opened 2048 2048).workspace.newStack 0 47)

def flood : List (Used Stack.Shift Shifted) × Session :=
  deal (shiftStack 0) (List.replicate 34 (.push 5)) lowStack

/-- A heap is made before the values are popped. -/
def ebb : List (Used Stack.Shift Shifted) × Session :=
  deal (shiftStack 0) (List.replicate 29 .pop) (flood.2.perform (.newHeap 0 100))

theorem newStack_low :
    ∃ w, (opened 2048 2048).workspace.newStack 0 47 = .ok w ∧
      (opened 2048 2048).become w = lowStack :=
  exists_become_eq_settle (opened 2048 2048) (by decide +kernel)

theorem dealings_lowStack :
    Dealings (.stack 0) (shiftStack 0) lowStack (flood.1 ++ ebb.1) ebb.2 :=
  (dealings_deal _ _ _ lowStack).append <|
    .others (T := {.heap 0}) (by simp) (.call _ (.newHeap 0 100) trivial subset_rfl)
      (dealings_deal _ _ _ _)

/-- Three resizes, of which the last comes as soon as it can after the one before. -/
theorem stack_hysteresis_of_tide :
    Reaches ∅ (opened 2048 2048) (opened 2048 2048) ∧
      ∃ w, (opened 2048 2048).workspace.newStack 0 47 = .ok w ∧
        Dealings (.stack 0) (shiftStack 0) ((opened 2048 2048).become w) (flood.1 ++ ebb.1) ebb.2 ∧
        (∀ e ∈ flood.1 ++ ebb.1, e.Granted) ∧
        (flood.1 ++ ebb.1).findIdxs (·.Resizes) = [1, 33, 62] ∧
        Hysteresis 47 (flood.1 ++ ebb.1) := by
  have hreaches : Reaches ∅ (opened 2048 2048) (opened 2048 2048) := .refl _ _
  obtain ⟨w, hw, hbegun⟩ := newStack_low
  have hlog := dealings_lowStack
  rw [← hbegun] at hlog
  have hgranted : ∀ e ∈ flood.1 ++ ebb.1, e.Granted := by decide +kernel
  refine ⟨hreaches, w, hw, hlog, hgranted, by decide +kernel, ?_⟩
  exact stack_hysteresis hreaches hw hlog hgranted

/-- As many pops as pushes, all with room for the resizes, bring a fresh stack back to the size it
began with. Only if that is an increment at most, and the stack had to grow, one increment stays:
then no more than two increments are unused when it is empty. -/
theorem size_after_pushes_and_pops (hs : Reaches T (opened capacity limit) s)
    (hw : s.workspace.newStack id size = .ok w)
    (hlog : Dealings (.stack id) (shiftStack id) (s.become w) log t) {vs : List Int64}
    (huses : log.map (·.use) = vs.map .push ++ List.replicate vs.length .pop)
    (hroom : ∀ e ∈ log, e.HasRoom) :
    (∀ e ∈ log, ∃ r, e.result.answer = .ok r) ∧
      ∃ u, t.stackTable[id]? = some u ∧ u.initialSize = max size (growHeadroom + slotSize) ∧
        u.top = 0 ∧ u.size =
          if u.initialSize ≤ growBytes ∧ u.initialSize < vs.length * slotSize + growHeadroom
            then u.initialSize + growBytes else u.initialSize := by
  have hsteady := Stack.Gauge.steady_fresh size
  obtain ⟨g', halong, u, hu, hgauge⟩ := exists_along_fresh hs hw hlog
  have hrun := hgauge.trans (Stack.Gauge.run_of_along halong hsteady hroom)
  rw [huses] at hrun
  have hfirst : u.initialSize = max size (growHeadroom + slotSize) :=
    (congrArg Stack.Gauge.first hrun).trans (Stack.Gauge.first_run _ _)
  refine ⟨Stack.Gauge.answered_of_along halong hsteady hroom fun before after hsplit => ?_, u, hu,
    ?_, ?_, ?_⟩
  · exact Stack.Gauge.top_ne_zero_before_pop (huses.symm.trans hsplit) _
  · exact hfirst
  · exact (congrArg Stack.Gauge.top hrun).trans (Stack.Gauge.top_run_back _ _)
  · rw [hfirst]
    exact (congrArg Stack.Gauge.size hrun).trans (hsteady.size_run_back rfl rfl vs)

/-- Pushes these values to a fresh stack, and pops them all again. -/
def swell (size : Nat) (vs : List Int64) : List (Used Stack.Shift Shifted) × Session :=
  deal (shiftStack 0) (vs.map .push ++ List.replicate vs.length .pop)
    ((opened 2048 2048).settle ((opened 2048 2048).workspace.newStack 0 size))

theorem dealings_swell (size : Nat) (vs : List Int64)
    (h : ((opened 2048 2048).workspace.newStack 0 size).isOk) :
    ∃ w, (opened 2048 2048).workspace.newStack 0 size = .ok w ∧
      Dealings (.stack 0) (shiftStack 0) ((opened 2048 2048).become w) (swell size vs).1
        (swell size vs).2 := by
  obtain ⟨w, hw, hbegun⟩ := exists_become_eq_settle (opened 2048 2048) h
  exact ⟨w, hw, hbegun ▸ dealings_deal _ _ _ _⟩

/-- The last of 34 pushes grows a region of 300 bytes, and a pop shrinks it again. -/
def swollen : List (Used Stack.Shift Shifted) × Session :=
  swell 300 (List.replicate 34 5)

theorem size_after_pushes_and_pops_of_swollen :
    Reaches ∅ (opened 2048 2048) (opened 2048 2048) ∧
      ∃ w, (opened 2048 2048).workspace.newStack 0 300 = .ok w ∧
        Dealings (.stack 0) (shiftStack 0) ((opened 2048 2048).become w) swollen.1 swollen.2 ∧
        swollen.1.map (·.use) = (List.replicate 34 5).map .push ++ List.replicate 34 .pop ∧
        (∀ e ∈ swollen.1, e.HasRoom) ∧ swollen.1.findIdxs (·.Resizes) = [33, 62] ∧
        (∀ e ∈ swollen.1, ∃ r, e.result.answer = .ok r) ∧
        ∃ u, swollen.2.stackTable[0]? = some u ∧ u.initialSize = 300 ∧ u.size = 300 := by
  have hreaches : Reaches ∅ (opened 2048 2048) (opened 2048 2048) := .refl _ _
  obtain ⟨w, hw, hlog⟩ := dealings_swell 300 (List.replicate 34 5) (by decide +kernel)
  have huses : swollen.1.map (·.use) =
      (List.replicate 34 5).map .push ++ List.replicate 34 .pop := by decide +kernel
  have hroom : ∀ e ∈ swollen.1, e.HasRoom := by decide +kernel
  obtain ⟨hanswered, u, hu, hfirst, -, hsize⟩ :=
    size_after_pushes_and_pops hreaches hw hlog huses hroom
  have hlarge : u.initialSize = 300 := hfirst
  rw [if_neg (by rw [hlarge]; decide)] at hsize
  exact ⟨hreaches, w, hw, hlog, huses, hroom, by decide +kernel, hanswered, u, hu, hlarge,
    hsize.trans hlarge⟩

/-- A region of 64 bytes that five values have grown has one increment more when they are gone, so
not every stack comes back to the size it began with. -/
theorem not_every_stack_shrinks_back :
    ¬ ∀ {capacity limit id size : Nat} {T : Set Name} {s t : Session} {w : Workspace}
      {log : List (Used Stack.Shift Shifted)} {vs : List Int64},
      Reaches T (opened capacity limit) s → s.workspace.newStack id size = .ok w →
      Dealings (.stack id) (shiftStack id) (s.become w) log t →
      log.map (·.use) = vs.map .push ++ List.replicate vs.length .pop →
      (∀ e ∈ log, e.HasRoom) →
      ∃ u, t.stackTable[id]? = some u ∧ u.size = u.initialSize := by
  intro hback
  obtain ⟨w, hw, hlog⟩ := dealings_swell 64 [0, 1, 2, 3, 4] (by decide +kernel)
  have huses : (swell 64 [0, 1, 2, 3, 4]).1.map (·.use) =
      [0, 1, 2, 3, 4].map .push ++ List.replicate 5 .pop := by decide +kernel
  obtain ⟨u, hu, hsize⟩ :=
    hback (.refl ∅ (opened 2048 2048)) hw hlog huses (by decide +kernel)
  have hsizes : (swell 64 [0, 1, 2, 3, 4]).2.stackTable[0]?.map
      (fun u => (u.size, u.initialSize)) = some (320, 64) := by decide +kernel
  rw [hu] at hsizes
  obtain ⟨h320, h64⟩ := Prod.mk.inj (Option.some.inj hsizes)
  omega

end Session

end BytecodeKernel
