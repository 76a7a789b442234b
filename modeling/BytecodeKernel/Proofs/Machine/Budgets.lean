import BytecodeKernel.Proofs.Machine.Contexts
import BytecodeKernel.Proofs.Machine.Ideal
/-!
How a budget is spent. A run that is given exactly the instructions it carries out ends as it does
with more of them, and a run that yields can be gone on with: two budgets one after the other are
worth their sum.
-/

namespace BytecodeKernel

namespace Runner

variable {σ : Type} (r : Runner σ)

/-- The number of instructions that a run begins to carry out, the one that ends it included. -/
def spent : Nat → Machine σ → Nat
  | 0, _ => 0
  | budget + 1, m =>
    match r.unwind m.stack.depth m with
    | .error _ _ => 0
    | .ok _ m =>
      if r.image.length ≤ m.cursor then 0
      else match r.step m with
        | .ok none m => spent budget m + 1
        | .ok (some _) _ | .error _ _ => 1

variable {r} {m : Machine σ}

/-- A run spends its budget at most. -/
theorem spent_le (r : Runner σ) (budget : Nat) (m : Machine σ) : r.spent budget m ≤ budget := by
  induction budget generalizing m with
  | zero => exact Nat.le_refl 0
  | succ budget ih =>
    rw [spent]
    split
    · omega
    · split
      · omega
      · split
        · exact Nat.succ_le_succ (ih _)
        · omega
        · omega

theorem keeps_plain (r : Runner σ) : r.Keeps fun m => m.stack.Plain :=
  r.keeps_shape Stack.isShape_plain

/-- One instruction and the run from there, on a stack without frames. -/
theorem run_succ (hm : m.stack.Plain) (budget : Nat) :
    r.run (budget + 1) m =
      if r.image.length ≤ m.cursor then .ok .finished m
      else match r.step m with
        | .ok none n => r.run budget n
        | .ok (some outcome) n => .ok outcome n
        | .error e n => .error e n := by
  simp only [run, Bind.bind, EStateM.bind, run_get, hm.depth, unwind, Pure.pure,
    EStateM.pure, Exec.cursor]
  by_cases hend : r.image.length ≤ m.cursor
  · rw [if_pos hend, if_pos hend, EStateM.pure]
  · rw [if_neg hend, if_neg hend, EStateM.bind]
    cases r.step m with
    | error e n => rfl
    | ok ended n => cases ended <;> rfl

theorem spent_succ (hm : m.stack.Plain) (budget : Nat) :
    r.spent (budget + 1) m =
      if r.image.length ≤ m.cursor then 0
      else match r.step m with
        | .ok none n => r.spent budget n + 1
        | .ok (some _) _ | .error _ _ => 1 := by
  rw [spent, hm.depth]
  rfl

/-- What is left of a budget makes no difference. -/
theorem run_spent (hm : m.stack.Plain) (budget : Nat) :
    r.run (r.spent budget m) m = r.run budget m := by
  induction budget generalizing m with
  | zero => rfl
  | succ budget ih =>
    rw [spent_succ hm, run_succ hm]
    by_cases hend : r.image.length ≤ m.cursor
    · rw [if_pos hend, if_pos hend]
      simp only [run, Bind.bind, EStateM.bind, run_get, if_pos (And.intro hend hm.depth)]
      rfl
    · have hstep := (r.keeps_plain.step).reached hm
      rw [if_neg hend, if_neg hend]
      cases hres : r.step m with
      | error e n => rw [run_succ hm, if_neg hend, hres]
      | ok ended n =>
        cases ended with
        | some outcome => rw [run_succ hm, if_neg hend, hres]
        | none =>
          rw [run_succ hm, if_neg hend, hres]
          exact ih (by rwa [hres] at hstep)

/-- A transcript costs nothing. -/
theorem spent_logged (r : Runner σ) (budget : Nat) (m : Machine (Logged σ)) :
    r.logged.spent budget m = r.spent budget m.forget := by
  induction budget generalizing m with
  | zero => rfl
  | succ budget ih =>
    have hunwind : forgetEnd (r.logged.unwind m.stack.depth m) =
        r.unwind m.forget.stack.depth m.forget := Mirrors.unwind r m.stack.depth m
    rw [spent, spent, ← hunwind]
    cases r.logged.unwind m.stack.depth m with
    | error e n => rfl
    | ok v n =>
      have hstep : forgetEnd (r.logged.step n) = r.step n.forget := Mirrors.step r n
      simp only [forgetEnd, image_logged, ← hstep]
      cases r.logged.step n with
      | error e n => rfl
      | ok ended n =>
        cases ended with
        | some outcome => rfl
        | none =>
          simp only [ih]
          rfl

theorem transcript_spent (hm : m.stack.Plain) (budget : Nat) :
    r.transcript (r.spent budget m) m = r.transcript budget m := by
  have hlogged := run_spent (r := r.logged) (m := m.recording) hm budget
  rw [spent_logged] at hlogged
  exact congrArg (fun outcome => (reached outcome).host.2) hlogged

end Runner

/-! ### Two budgets -/

/-- The action does not say that the budget ran out. -/
def Decided {τ : Type} (x : EStateM Fault τ (Option Outcome)) : Prop :=
  ∀ s t, x s ≠ .ok (some .yielded) t

theorem Decided.bind {τ α : Type} {x : EStateM Fault τ α}
    {f : α → EStateM Fault τ (Option Outcome)} (h : ∀ v, Decided (f v)) : Decided (x >>= f) := by
  intro s t heq
  simp only [Bind.bind, EStateM.bind] at heq
  cases hx : x s with
  | ok v u =>
    rw [hx] at heq
    exact h v u t heq
  | error e u =>
    rw [hx] at heq
    contradiction

theorem decided_pure {τ : Type} {v : Option Outcome} (h : v ≠ some .yielded) :
    Decided (pure v : EStateM Fault τ (Option Outcome)) := by
  intro s t heq
  cases heq
  exact h rfl

theorem decided_throw {τ : Type} (e : Fault) :
    Decided (throw e : EStateM Fault τ (Option Outcome)) := by
  intro s t heq
  cases heq

namespace Ideal.Setting

variable {H : Type} {g : Setting H} {i j : Ideal H}

/-- No instruction ends for want of budget. -/
theorem decided_perform (o : Opcode) (offset : Nat) : Decided (g.perform o offset) := by
  have hnone : Decided (pure none : IdealM H (Option Outcome)) := decided_pure (by simp)
  cases o with
  | halt => exact .bind fun v => decided_pure (by simp)
  | _ => repeat (first | exact hnone | refine .bind fun _ => ?_)

theorem decided_step : Decided g.step := by
  intro i j
  rw [step_eq]
  cases g.program[i.cursor]? with
  | none => simp
  | some byte =>
    simp only
    cases Opcode.ofByte? byte with
    | none => simp
    | some o => exact Decided.bind (fun _ => decided_perform o i.cursor) i j

/-- The state in which the frames are left. -/
def left (g : Setting H) (i : Ideal H) : Ideal H :=
  { i with
    cursor := (leave g.program.length i.cursor i.returns).1
    returns := (leave g.program.length i.cursor i.returns).2 }

/-- One instruction and the run from there. -/
theorem run_succ (budget : Nat) (i : Ideal H) :
    g.run (budget + 1) i =
      if g.program.length ≤ (g.left i).cursor then .ok .finished (g.left i)
      else match g.step (g.left i) with
        | .ok none j => g.run budget j
        | .ok (some outcome) j => .ok outcome j
        | .error e j => .error e j := by
  have hunwind : g.unwind i = .ok () (g.left i) := rfl
  simp only [run, Bind.bind, EStateM.bind, hunwind, at?]
  by_cases hend : g.program.length ≤ (g.left i).cursor
  · rw [if_pos hend, if_pos hend]
    rfl
  · rw [if_neg hend, if_neg hend, EStateM.bind]
    cases g.step (g.left i) with
    | error e j => rfl
    | ok ended j => cases ended <;> rfl

/-- Without instructions nothing is done. -/
theorem reached_run_zero (i : Ideal H) : reached (g.run 0 i) = i := by
  simp only [run, Bind.bind, EStateM.bind, run_get]
  split <;> rfl

/-- A run that yielded goes on as if it had not. -/
theorem run_add {budget : Nat} (h : g.run budget i = .ok .yielded j) (more : Nat) :
    g.run (budget + more) i = g.run more j := by
  induction budget generalizing i with
  | zero =>
    have hstay : j = i := by
      rw [← reached_run_zero (g := g) i, h]
      rfl
    rw [Nat.zero_add, hstay]
  | succ budget ih =>
    rw [run_succ] at h
    rw [Nat.add_right_comm, run_succ]
    by_cases hend : g.program.length ≤ (g.left i).cursor
    · rw [if_pos hend] at h
      cases h
    · rw [if_neg hend] at h ⊢
      cases hstep : g.step (g.left i) with
      | error e k =>
        rw [hstep] at h
        cases h
      | ok ended k =>
        rw [hstep] at h
        cases ended with
        | none => exact ih h
        | some outcome =>
          cases h
          exact absurd hstep (decided_step _ _)

end Ideal.Setting

end BytecodeKernel
