import BytecodeKernel.Proofs.Machine.Budgets
import Mathlib.Algebra.Ring.Nat
/-!
A budget may be cut. Whatever the program, the machine and the host, a run that is interrupted for
want of budget and gone on with is the run on the whole budget: it has the same end, leaves the same
machine, and has asked its host for the same.
-/

namespace BytecodeKernel.Runner

variable {σ : Type} (r : Runner σ)

/-- No instruction ends for want of budget. -/
theorem decided_perform (o : Opcode) (offset : Nat) : Decided (r.perform o offset) := by
  have hnone : Decided (pure none : Exec σ (Option Outcome)) := decided_pure (by simp)
  cases o with
  | halt => exact .bind fun v => decided_pure (by simp)
  | _ => repeat (first | exact hnone | refine .bind fun _ => ?_)

theorem decided_step : Decided r.step := by
  refine .bind fun offset => ?_
  cases r.image.addressOf? offset with
  | none => exact decided_throw _
  | some addr =>
    refine .bind fun m => .bind fun byte => ?_
    cases Opcode.ofByte? byte with
    | none => exact decided_throw _
    | some o => exact .bind fun _ => r.decided_perform o offset

/-- Without instructions nothing is done. -/
theorem run_zero (m : Machine σ) :
    r.run 0 m =
      .ok (if r.image.length ≤ m.cursor ∧ m.stack.depth = 0 then .finished else .yielded) m := by
  simp only [run, Bind.bind, EStateM.bind, run_get]
  split <;> rfl

/-- One instruction, on a stack with any frames, and the run from there. -/
theorem run_next (budget : Nat) (m : Machine σ) :
    r.run (budget + 1) m =
      match r.unwind m.stack.depth m with
      | .error e n => .error e n
      | .ok _ n =>
        if r.image.length ≤ n.cursor then .ok .finished n
        else match r.step n with
          | .ok none k => r.run budget k
          | .ok (some outcome) k => .ok outcome k
          | .error e k => .error e k := by
  simp only [run, Bind.bind, EStateM.bind, run_get, Exec.cursor]
  cases r.unwind m.stack.depth m with
  | error e n => rfl
  | ok _ n =>
    by_cases hend : r.image.length ≤ n.cursor
    · simp only [if_pos hend]
      rfl
    · simp only [if_neg hend, EStateM.bind]
      cases r.step n with
      | error e k => rfl
      | ok ended k => cases ended <;> rfl

/-- At the end of the image with no frame left, no budget changes anything. -/
theorem run_at_end {m : Machine σ} (hend : r.image.length ≤ m.cursor) (hdepth : m.stack.depth = 0)
    (budget : Nat) : r.run budget m = .ok .finished m := by
  cases budget with
  | zero => rw [run_zero, if_pos ⟨hend, hdepth⟩]
  | succ budget =>
    rw [run_next, hdepth]
    exact if_pos hend

/-- Two budgets, the second only after the first ran out, are worth their sum. -/
theorem run_add (first second : Nat) (m : Machine σ) :
    r.run (first + second) m =
      match r.run first m with
      | .ok .yielded n => r.run second n
      | ended => ended := by
  induction first generalizing m with
  | zero =>
    rw [Nat.zero_add, run_zero]
    by_cases hdone : r.image.length ≤ m.cursor ∧ m.stack.depth = 0
    · rw [if_pos hdone, r.run_at_end hdone.1 hdone.2]
    · rw [if_neg hdone]
  | succ first ih =>
    rw [Nat.add_right_comm, run_next, run_next]
    cases r.unwind m.stack.depth m with
    | error e n => rfl
    | ok _ n =>
      by_cases hend : r.image.length ≤ n.cursor
      · simp only [if_pos hend]
      · simp only [if_neg hend]
        cases hstep : r.step n with
        | error e k => rfl
        | ok ended k =>
          cases ended with
          | none => exact ih k
          | some outcome =>
            cases outcome with
            | yielded => exact absurd hstep (r.decided_step n k)
            | finished | halted recursive => rfl

/-- A budget cut in pieces, each but the first used only once those before it ran out. -/
def sliced (budget : Nat) : List Nat → Exec σ Outcome
  | [] => r.run budget
  | next :: rest => do
    match ← r.run budget with
    | .yielded => sliced next rest
    | outcome => return outcome

theorem sliced_eq_run (budget : Nat) (rest : List Nat) (m : Machine σ) :
    r.sliced budget rest m = r.run (budget + rest.sum) m := by
  induction rest generalizing budget m with
  | nil => rfl
  | cons next rest ih =>
    rw [List.sum_cons, run_add]
    simp only [sliced, Bind.bind, EStateM.bind]
    cases r.run budget m with
    | error e n => rfl
    | ok outcome n =>
      cases outcome with
      | yielded => exact ih next n
      | finished | halted recursive => rfl

/-- However a budget is cut, pieces of nothing included, the run has the same end, the same machine
at its end, and the same requests with the same answers. -/
theorem independent_of_slicing (m : Machine σ) :
    (∀ first second, r.run (first + second) m =
      match r.run first m with
      | .ok .yielded n => r.run second n
      | ended => ended) ∧
    (∀ budget rest, r.sliced budget rest m = r.run (budget + rest.sum) m) ∧
    ∀ budget rest, (reached (r.logged.sliced budget rest m.recording)).host.2 =
      r.transcript (budget + rest.sum) m := by
  refine ⟨fun first second => r.run_add first second m,
    fun budget rest => r.sliced_eq_run budget rest m, fun budget rest => ?_⟩
  rw [sliced_eq_run, transcript]

end BytecodeKernel.Runner
