import BytecodeKernel.Proofs.Machine.Quanta
import BytecodeKernel.Proofs.Machine.Shapes
/-!
A quantum as a loop. Each turn of it either closes a frame, where the cursor lies past the end of
the image, or attempts an instruction, and a return does not count against the budget. No
instruction opens a frame, so with every turn that is not the last the budget and the frames that
are left become one less together. The loop therefore ends on any bytes, from any cursor and with
any frames, and what it comes to is the run.
-/

namespace BytecodeKernel.Runner

variable {σ : Type}

/-- Where the loop stands. -/
structure Round (σ : Type) where
  machine : Machine σ
  /-- How many instructions were begun, -/
  attempted : Nat := 0
  /-- and how many of these neither met a fault nor ended the program. -/
  completed : Nat := 0
  /-- How often a frame was closed at the end of the image. -/
  returned : Nat := 0

/-- What a turn comes to. -/
inductive Turn (σ : Type) where
  | again (next : Round σ)
  | stop (last : Round σ) (result : Except Fault Outcome)

/-- One turn of the loop. -/
def turn (r : Runner σ) (budget : Nat) (p : Round σ) : Turn σ :=
  if p.attempted < budget then
    if r.image.length ≤ p.machine.cursor then
      if p.machine.stack.depth = 0 then .stop p (.ok .finished)
      else
        match Exec.onStack Stack.popFrame p.machine with
        | .ok cursor m => .again { p with machine := { m with cursor }, returned := p.returned + 1 }
        | .error e m => .stop { p with machine := m } (.error e)
    else
      match r.step p.machine with
      | .ok none m => .again { p with
          machine := m
          attempted := p.attempted + 1
          completed := p.completed + 1 }
      | .ok (some outcome) m =>
        .stop { p with machine := m, attempted := p.attempted + 1 } (.ok outcome)
      | .error e m => .stop { p with machine := m, attempted := p.attempted + 1 } (.error e)
  else if r.image.length ≤ p.machine.cursor ∧ p.machine.stack.depth = 0 then .stop p (.ok .finished)
  else .stop p (.ok .yielded)

/-- The loop comes from one round to its last, with a result, after finitely many turns. -/
inductive Loops (r : Runner σ) (budget : Nat) : Round σ → Round σ → Except Fault Outcome → Prop
  | stop {p last : Round σ} {result : Except Fault Outcome}
      (hturn : r.turn budget p = .stop last result) : Loops r budget p last result
  | again {p next last : Round σ} {result : Except Fault Outcome}
      (hturn : r.turn budget p = .again next) (hrest : Loops r budget next last result) :
      Loops r budget p last result

variable {r : Runner σ} {budget frames : Nat} {m n : Machine σ} {p next last last' : Round σ}
  {result result' : Except Fault Outcome}

/-! ### Frames and instructions -/

/-- A frame that is returned from is closed. -/
theorem depth_of_popFrame {cursor : Nat} (hpop : Exec.onStack Stack.popFrame m = .ok cursor n) :
    n.stack.depth = m.stack.depth - 1 := by
  have hclosed : Hoare (fun t : Stack × Arena => t.1.depth = m.stack.depth) Stack.popFrame
      (fun _ t => t.1.depth = m.stack.depth - 1) fun _ => True := by
    refine Hoare.bind (Stack.preserves_peekFrame.weaken (fun _ h => h) (fun _ _ h => h)
      fun _ _ => trivial) fun cursor => ?_
    refine Hoare.bind (TenantM.hoare_modifySelf fun t a ht => ?_) fun _ => Hoare.pure fun _ h => h
    exact congrArg (· - 1) ht
  have hend := hclosed (m.stack, m.arena) rfl
  rw [Exec.onStack] at hpop
  cases hres : Stack.popFrame (m.stack, m.arena) with
  | error e t =>
    rw [hres] at hpop
    cases hpop
  | ok v t =>
    rw [hres] at hpop hend
    cases hpop
    exact hend

theorem isShape_depth_le (frames : Nat) : Stack.IsShape fun t => t.depth ≤ frames where
  moved _ _ _ h := h
  pushed _ h := h
  popped _ _ h := h
  returned _ h := (Nat.sub_le _ _).trans h

theorem depth_popFrame_le (r : Runner σ) (m : Machine σ) :
    (reached (Exec.onStack Stack.popFrame m)).stack.depth ≤ m.stack.depth :=
  (r.keeps_shape (isShape_depth_le m.stack.depth)).popFrame.reached (Nat.le_refl _)

/-- No instruction opens a frame. -/
theorem depth_step_le (r : Runner σ) (m : Machine σ) :
    (reached (r.step m)).stack.depth ≤ m.stack.depth :=
  (r.keeps_shape (isShape_depth_le m.stack.depth)).step.reached (Nat.le_refl _)

/-- What an action answers, wherever it starts. -/
def Answers {α : Type} (x : Exec σ α) (P : α → Prop) : Prop :=
  Hoare (fun _ => True) x (fun v _ => P v) fun _ => True

theorem Answers.bind {α β : Type} {x : Exec σ α} {f : α → Exec σ β} {P : β → Prop}
    (h : ∀ v, Answers (f v) P) : Answers (x >>= f) P := by
  apply Hoare.bind (Q := fun _ _ => True) _ h
  intro m _
  cases x m <;> trivial

/-- The program goes on, or a halt ends it. -/
def GoesOnOrHalts (ended : Option Outcome) : Prop :=
  ∀ outcome ∈ ended, ∃ recursive, outcome = .halted recursive

theorem answers_perform (r : Runner σ) (o : Opcode) (offset : Nat) :
    Answers (r.perform o offset) GoesOnOrHalts := by
  have hnone : Answers (pure none : Exec σ (Option Outcome)) GoesOnOrHalts :=
    Hoare.pure fun _ _ outcome h => absurd h (Option.not_mem_none outcome)
  cases o with
  | halt => exact .bind fun v => Hoare.pure fun _ _ outcome h => ⟨_, (Option.mem_some.1 h).symm⟩
  | _ => repeat (first | exact hnone | refine .bind fun _ => ?_)

theorem answers_step (r : Runner σ) : Answers r.step GoesOnOrHalts := by
  refine .bind fun offset => ?_
  cases r.image.addressOf? offset with
  | none => exact Hoare.throw fun _ _ => trivial
  | some addr =>
    refine .bind fun m => .bind fun byte => ?_
    cases Opcode.ofByte? byte with
    | none => exact Hoare.throw fun _ _ => trivial
    | some o => exact .bind fun _ => r.answers_perform o offset

/-- Of all outcomes, an instruction has only the halt. -/
theorem halted_of_step {outcome : Outcome} (h : r.step m = .ok (some outcome) n) :
    ∃ recursive, outcome = .halted recursive := by
  have hanswer := r.answers_step m trivial
  rw [h] at hanswer
  exact hanswer outcome rfl

/-! ### One turn -/

/-- The counters are right for a loop that is not over and began with so many frames. -/
structure Round.Fair (p : Round σ) (budget frames : Nat) : Prop where
  attempted_le : p.attempted ≤ budget
  completed_eq : p.completed = p.attempted
  returned_le : p.returned + p.machine.stack.depth ≤ frames

/-- The budget and the frames that are left. -/
def Round.left (p : Round σ) (budget : Nat) : Nat :=
  budget - p.attempted + p.machine.stack.depth

/-- A turn that is not the last closes a frame or completes an instruction. -/
theorem again_cases (h : r.turn budget p = .again next) :
    p.attempted < budget ∧
      (next.attempted = p.attempted ∧ next.completed = p.completed ∧
          next.returned = p.returned + 1 ∧
          next.machine.stack.depth + 1 = p.machine.stack.depth ∨
        next.attempted = p.attempted + 1 ∧ next.completed = p.completed + 1 ∧
          next.returned = p.returned ∧ next.machine.stack.depth ≤ p.machine.stack.depth) := by
  rw [turn] at h
  by_cases hbudget : p.attempted < budget
  · rw [if_pos hbudget] at h
    refine ⟨hbudget, ?_⟩
    by_cases hend : r.image.length ≤ p.machine.cursor
    · rw [if_pos hend] at h
      by_cases hdepth : p.machine.stack.depth = 0
      · rw [if_pos hdepth] at h
        cases h
      · rw [if_neg hdepth] at h
        cases hpop : Exec.onStack Stack.popFrame p.machine with
        | error e m =>
          rw [hpop] at h
          cases h
        | ok cursor m =>
          rw [hpop] at h
          cases h
          have hclosed : m.stack.depth = p.machine.stack.depth - 1 := depth_of_popFrame hpop
          refine .inl ⟨rfl, rfl, rfl, ?_⟩
          show m.stack.depth + 1 = p.machine.stack.depth
          omega
    · rw [if_neg hend] at h
      have hle := r.depth_step_le p.machine
      cases hstep : r.step p.machine with
      | error e m =>
        rw [hstep] at h
        cases h
      | ok ended m =>
        rw [hstep] at h hle
        cases ended with
        | some outcome => cases h
        | none =>
          cases h
          exact .inr ⟨rfl, rfl, rfl, hle⟩
  · rw [if_neg hbudget] at h
    split at h <;> cases h

theorem left_lt_of_again (h : r.turn budget p = .again next) :
    next.left budget < p.left budget := by
  obtain ⟨hbudget, hreturn | hstep⟩ := again_cases h <;> simp only [Round.left] <;> omega

theorem Round.Fair.again (hp : p.Fair budget frames) (h : r.turn budget p = .again next) :
    next.Fair budget frames := by
  obtain ⟨hattempted, hcompleted, hreturned⟩ := hp
  obtain ⟨hbudget, hreturn | hstep⟩ := again_cases h <;> constructor <;> omega

/-- What the last round shows of a loop that began with so many frames. -/
structure Round.Final (last : Round σ) (r : Runner σ) (budget frames : Nat)
    (result : Except Fault Outcome) : Prop where
  attempted_le : last.attempted ≤ budget
  returned_le : last.returned + last.machine.stack.depth ≤ frames
  yielded_iff : result = .ok .yielded ↔ last.completed = budget ∧
    (last.machine.cursor < r.image.length ∨ last.machine.stack.depth ≠ 0)
  atEnd : result = .ok .finished →
    r.image.length ≤ last.machine.cursor ∧ last.machine.stack.depth = 0

/-- A last round in which fewer instructions were completed than the budget had. -/
theorem Round.final_of_completed_lt (hattempted : last.attempted ≤ budget)
    (hreturned : last.returned + last.machine.stack.depth ≤ frames)
    (hcompleted : last.completed < budget) (hyielded : result ≠ .ok .yielded)
    (hend : result = .ok .finished →
      r.image.length ≤ last.machine.cursor ∧ last.machine.stack.depth = 0) :
    last.Final r budget frames result where
  attempted_le := hattempted
  returned_le := hreturned
  yielded_iff := ⟨fun h => absurd h hyielded, fun h => absurd h.1 (Nat.ne_of_lt hcompleted)⟩
  atEnd := hend

theorem Round.Fair.stop (hp : p.Fair budget frames) (h : r.turn budget p = .stop last result) :
    last.Final r budget frames result := by
  obtain ⟨hattempted, hcompleted, hreturned⟩ := hp
  rw [turn] at h
  by_cases hbudget : p.attempted < budget
  · rw [if_pos hbudget] at h
    have hshort : p.completed < budget := hcompleted ▸ hbudget
    by_cases hend : r.image.length ≤ p.machine.cursor
    · rw [if_pos hend] at h
      by_cases hdepth : p.machine.stack.depth = 0
      · rw [if_pos hdepth] at h
        cases h
        exact final_of_completed_lt hattempted hreturned hshort (by simp) fun _ => ⟨hend, hdepth⟩
      · rw [if_neg hdepth] at h
        have hle := r.depth_popFrame_le p.machine
        cases hpop : Exec.onStack Stack.popFrame p.machine with
        | ok cursor m =>
          rw [hpop] at h
          cases h
        | error e m =>
          rw [hpop] at h hle
          cases h
          exact final_of_completed_lt hattempted ((Nat.add_le_add_left hle _).trans hreturned)
            hshort (by simp) (by simp)
    · rw [if_neg hend] at h
      have hle := r.depth_step_le p.machine
      cases hstep : r.step p.machine with
      | error e m =>
        rw [hstep] at h hle
        cases h
        exact final_of_completed_lt hbudget ((Nat.add_le_add_left hle _).trans hreturned)
          hshort (by simp) (by simp)
      | ok ended m =>
        rw [hstep] at h hle
        cases ended with
        | none => cases h
        | some outcome =>
          cases h
          obtain ⟨recursive, rfl⟩ := halted_of_step hstep
          exact final_of_completed_lt hbudget ((Nat.add_le_add_left hle _).trans hreturned)
            hshort (by simp) (by simp)
  · -- The budget is used up, and all of it was completed.
    rw [if_neg hbudget] at h
    have hall : p.completed = budget := by omega
    by_cases hdone : r.image.length ≤ p.machine.cursor ∧ p.machine.stack.depth = 0
    · rw [if_pos hdone] at h
      cases h
      refine ⟨hattempted, hreturned, ⟨fun h => by simp at h, fun h => ?_⟩, fun _ => hdone⟩
      omega
    · rw [if_neg hdone] at h
      cases h
      refine ⟨hattempted, hreturned, ⟨fun _ => ⟨hall, ?_⟩, fun _ => rfl⟩, fun h => by simp at h⟩
      omega

/-! ### The whole loop -/

theorem exists_loops (r : Runner σ) (budget : Nat) (p : Round σ) :
    ∃ last result, r.Loops budget p last result := by
  induction hleft : p.left budget using Nat.strongRecOn generalizing p with
  | _ left ih =>
    cases hturn : r.turn budget p with
    | stop last result => exact ⟨last, result, .stop hturn⟩
    | again next =>
      obtain ⟨last, result, hrest⟩ := ih _ (hleft ▸ left_lt_of_again hturn) next rfl
      exact ⟨last, result, .again hturn hrest⟩

theorem Loops.unique (h : r.Loops budget p last result) (h' : r.Loops budget p last' result') :
    last' = last ∧ result' = result := by
  induction h with
  | stop hturn =>
    cases h' with
    | stop hturn' =>
      cases hturn.symm.trans hturn'
      exact ⟨rfl, rfl⟩
    | again hturn' _ => cases hturn.symm.trans hturn'
  | again hturn _ ih =>
    cases h' with
    | stop hturn' => cases hturn.symm.trans hturn'
    | again hturn' hrest' =>
      cases hturn.symm.trans hturn'
      exact ih hrest'

theorem Loops.final (h : r.Loops budget p last result) (hp : p.Fair budget frames) :
    last.Final r budget frames result := by
  induction h with
  | stop hturn => exact hp.stop hturn
  | again hturn _ ih => exact ih (hp.again hturn)

/-- A result together with the machine that is left. -/
def Round.endingIn (last : Round σ) : Except Fault Outcome →
    EStateM.Result Fault (Machine σ) Outcome
  | .ok outcome => .ok outcome last.machine
  | .error e => .error e last.machine

/-- Inside the image no frame is closed. -/
theorem unwind_of_lt (hinside : m.cursor < r.image.length) (depth : Nat) :
    r.unwind depth m = .ok () m := by
  cases depth with
  | zero => rfl
  | succ depth =>
    simp only [unwind, Bind.bind, EStateM.bind, Exec.cursor, if_neg (Nat.not_le.2 hinside)]
    rfl

theorem unwind_of_le (hend : r.image.length ≤ m.cursor) (depth : Nat) :
    r.unwind (depth + 1) m =
      match Exec.onStack Stack.popFrame m with
      | .ok cursor n => r.unwind depth { n with cursor }
      | .error e n => .error e n := by
  simp only [unwind, Bind.bind, EStateM.bind, Exec.cursor, if_pos hend]
  cases Exec.onStack Stack.popFrame m <;> rfl

/-- Past the end a run closes one frame, and is then the run from there on the same budget. -/
theorem run_of_return (hend : r.image.length ≤ m.cursor) (hdepth : m.stack.depth ≠ 0)
    (budget : Nat) :
    r.run (budget + 1) m =
      match Exec.onStack Stack.popFrame m with
      | .ok cursor n => r.run (budget + 1) { n with cursor }
      | .error e n => .error e n := by
  obtain ⟨depth, hsucc⟩ := Nat.exists_eq_succ_of_ne_zero hdepth
  rw [run_next, hsucc, Nat.succ_eq_add_one, unwind_of_le hend]
  cases hpop : Exec.onStack Stack.popFrame m with
  | error e n => rfl
  | ok cursor n =>
    have hclosed : n.stack.depth = depth := by
      rw [depth_of_popFrame hpop, hsucc, Nat.succ_sub_one]
    dsimp only
    rw [run_next, hclosed]

/-- The run on what is left of the budget goes turn by turn. -/
theorem run_eq_turn (r : Runner σ) (budget : Nat) (p : Round σ) :
    r.run (budget - p.attempted) p.machine =
      match r.turn budget p with
      | .again next => r.run (budget - next.attempted) next.machine
      | .stop last result => last.endingIn result := by
  rw [turn]
  by_cases hbudget : p.attempted < budget
  · rw [if_pos hbudget]
    obtain ⟨rest, hrest⟩ : ∃ rest, budget - p.attempted = rest + 1 :=
      ⟨budget - (p.attempted + 1), by omega⟩
    by_cases hend : r.image.length ≤ p.machine.cursor
    · rw [if_pos hend]
      by_cases hdepth : p.machine.stack.depth = 0
      · rw [if_pos hdepth, run_at_end r hend hdepth]
        rfl
      · rw [if_neg hdepth, hrest, run_of_return hend hdepth]
        cases Exec.onStack Stack.popFrame p.machine with
        | error e m => rfl
        | ok cursor m =>
          dsimp only
          rw [hrest]
    · rw [if_neg hend, hrest, run_next, unwind_of_lt (Nat.not_le.1 hend)]
      dsimp only
      rw [if_neg hend]
      cases r.step p.machine with
      | error e m => rfl
      | ok ended m =>
        cases ended with
        | some outcome => rfl
        | none =>
          dsimp only
          rw [Nat.sub_add_eq, hrest, Nat.add_sub_cancel]
  · rw [if_neg hbudget, Nat.sub_eq_zero_of_le (Nat.not_lt.1 hbudget), run_zero]
    split <;> rfl

theorem Loops.run_eq (h : r.Loops budget p last result) :
    r.run (budget - p.attempted) p.machine = last.endingIn result := by
  induction h with
  | stop hturn => rw [run_eq_turn, hturn]
  | again hturn _ ih =>
    rw [run_eq_turn, hturn]
    exact ih

/-- Whatever the bytes, the cursor, the frames, the budget and the host, a quantum ends, in one way,
which is the run. It attempts no more instructions than the budget has and returns no more often
than there were frames; it yields exactly if the budget was completed with something left to do; and
it finishes only past the end with no frame left. -/
theorem quantum_ends (r : Runner σ) (budget : Nat) (m : Machine σ) :
    ∃ last result, r.Loops budget { machine := m } last result ∧
      (∀ last' result', r.Loops budget { machine := m } last' result' →
        last' = last ∧ result' = result) ∧
      r.run budget m = last.endingIn result ∧
      last.attempted ≤ budget ∧
      last.returned ≤ m.stack.depth ∧
      (result = .ok .yielded ↔ last.completed = budget ∧
        (last.machine.cursor < r.image.length ∨ last.machine.stack.depth ≠ 0)) ∧
      (result = .ok .finished →
        r.image.length ≤ last.machine.cursor ∧ last.machine.stack.depth = 0) := by
  obtain ⟨last, result, hloops⟩ := r.exists_loops budget { machine := m }
  have hfinal : last.Final r budget m.stack.depth result :=
    hloops.final ⟨Nat.zero_le _, rfl, (Nat.zero_add _).le⟩
  exact ⟨last, result, hloops, fun _ _ => hloops.unique, hloops.run_eq, hfinal.attempted_le,
    (Nat.le_add_right _ _).trans hfinal.returned_le, hfinal.yielded_iff, hfinal.atEnd⟩

end BytecodeKernel.Runner
