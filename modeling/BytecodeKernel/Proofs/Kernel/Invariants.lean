import BytecodeKernel.Kernel.Pass
import BytecodeKernel.Proofs.Kernel.Registry
import BytecodeKernel.Proofs.Memory.Tenancy
/-!
Invariants of a kernel. Whatever a client asks for is made of a few actions: processes are created,
bound, dispatched, relabelled, run and ended. A predicate that each of these upholds is upheld by
the ends of whole workers, by passes and by the shutdown, which only put such actions in a row.
-/

namespace BytecodeKernel

namespace Kernel

/-- An action that cannot fail keeps a predicate. -/
def Steady {α : Type} (P : Kernel → Prop) (x : StateM Kernel α) : Prop :=
  ∀ k, P k → P (x k).2

namespace Steady

variable {α β : Type} {P : Kernel → Prop}

theorem pure (v : α) : Steady P (pure v) :=
  fun _ h => h

theorem get : Steady P (get : StateM Kernel Kernel) :=
  fun _ h => h

theorem modify {f : Kernel → Kernel} (h : ∀ k, P k → P (f k)) :
    Steady P (modify f : StateM Kernel Unit) :=
  h

theorem bind {x : StateM Kernel α} {f : α → StateM Kernel β} (hx : Steady P x)
    (hf : ∀ v, Steady P (f v)) : Steady P (x >>= f) :=
  fun k hk => hf _ _ (hx k hk)

theorem ite {c : Prop} [Decidable c] {x y : StateM Kernel α} (hx : Steady P x) (hy : Steady P y) :
    Steady P (if c then x else y) := by
  split
  · exact hx
  · exact hy

end Steady

/-- The actions by which processes end, and those that look to nothing but labels and workers, all
keep a predicate. -/
structure Ends (P : Kernel → Prop) : Prop where
  relabel : ∀ k id f, P k → (∀ p : Process, p.Relabels (f p)) → P (k.1.modifyProcess id f, k.2)
  worker : ∀ k index f, P k → (∀ w : Worker, (f w).owned.Sublist w.owned) →
    P (k.1.modifyWorker index f, k.2)
  keepAlive : ∀ (k : Kernel) keepAlive, P k → P ({ k.1 with keepAlive }, k.2)
  halt : ∀ id, Preserves P (halt id)
  haltSubtree : ∀ id, Preserves P (haltSubtree id)
  /-- A release of a process that is not registered. -/
  release : ∀ k id, P k → ¬ k.1.IsRegistered id → P (release id k)

/-- The actions that operations are made of all keep a predicate. -/
structure Upholds (P : Kernel → Prop) : Prop extends Ends P where
  generate : ∀ parent, Preserves P (generate parent)
  bindProgram : ∀ id bytes, Preserves P (bindProgram id bytes)
  dispatch : ∀ id, Preserves P (dispatch id)
  execute : ∀ id budget, Steady P (execute id budget)

theorem attempt_eq_reached (x : KernelM Unit) (k : Kernel) : attempt x k = reached (x k) := by
  rw [attempt]
  cases x k <;> rfl

theorem Upholds.attempt {P : Kernel → Prop} {k : Kernel} {x : KernelM Unit} (hx : Preserves P x)
    (h : P k) : P (attempt x k) := by
  rw [attempt_eq_reached]
  exact hx.reached h

namespace Ends

variable {P : Kernel → Prop} {k : Kernel}

/-! ### The ends of processes -/

theorem close (hP : Ends P) (h : P k) (id : Nat) : P (close id k) := by
  rw [Kernel.close]
  split
  · exact Upholds.attempt (hP.halt id) h
  · exact hP.release k id h ‹_›

theorem closeSubtree (hP : Ends P) (h : P k) (id : Nat) : P (closeSubtree id k) := by
  rw [Kernel.closeSubtree]
  split
  · exact Upholds.attempt (hP.haltSubtree id) h
  · exact hP.release k id h ‹_›

theorem haltEach (hP : Ends P) (h : P k) (ids : List Nat) : P (haltEach ids k) := by
  induction ids generalizing k with
  | nil => exact h
  | cons id rest ih => exact ih (Upholds.attempt (hP.haltSubtree id) h)

theorem retire (hP : Ends P) (h : P k) (index : Nat) : P (retire index k) := by
  have hasleep := hP.worker k index ({ · with awake := false, owned := [] }) h fun w =>
    List.nil_sublist _
  exact hP.haltEach hasleep _

theorem shutdown (hP : Ends P) (h : P k) : P (shutdown k) := by
  have hretired (indices : List Nat) {k : Kernel} (h : P k) :
      P (indices.foldl (fun k index => Kernel.retire index k) k) := by
    induction indices generalizing k with
    | nil => exact h
    | cons index rest ih => exact ih (hP.retire h index)
  exact hP.haltEach (hretired _ (hP.keepAlive k false h)) _

/-! ### Ages -/

theorem tick (hP : Ends P) (h : P k) (id : Nat) :
    P (k.1.modifyProcess id (·.tick), k.2) :=
  hP.relabel k id _ h fun p => p.relabels_tick

theorem tickEach (hP : Ends P) {s : System} {a : Arena} (h : P (s, a)) (ids : List Nat) :
    P (ids.foldl (fun s id => s.modifyProcess id (·.tick)) s, a) := by
  induction ids generalizing s with
  | nil => exact h
  | cons id rest ih => exact ih (hP.tick h id)

end Ends

/-! ### Passes -/

namespace Upholds

variable {P : Kernel → Prop} {k : Kernel}

theorem serve (hP : Upholds P) (budget remaining : Nat) (ids : List Nat) :
    Steady P (serve budget remaining ids) := by
  induction ids generalizing remaining with
  | nil => exact .pure _
  | cons id rest ih =>
    rw [Kernel.serve]
    refine .ite (.pure _) (.bind .get fun k => ?_)
    refine .ite (.bind (.modify fun k hk => hP.tick hk id) fun _ => ih remaining) ?_
    exact .bind (hP.execute id _) fun quantum => .bind (ih _) fun others => .pure _

theorem workerPass (hP : Upholds P) (index : Nat) : Steady P (workerPass index) := by
  rw [Kernel.workerPass]
  refine .bind .get fun k => ?_
  simp only
  split
  · exact .pure _
  · refine .bind (.modify fun k hk => hP.tickEach hk _) fun _ => ?_
    exact .bind .get fun _ => hP.serve _ _ _

theorem passesFrom (hP : Upholds P) (indices : List Nat) : Steady P (passesFrom indices) := by
  induction indices with
  | nil => exact .pure _
  | cons index rest ih =>
    rw [Kernel.passesFrom]
    have hrest (ran : Nat) : Steady P (do return ran + (← Kernel.passesFrom rest)) :=
      .bind ih fun _ => .pure _
    refine .bind .get fun k => ?_
    exact .ite (.bind (hP.workerPass index) hrest) (.bind (.pure 0) hrest)

theorem runPass (hP : Upholds P) : Steady P runPass :=
  .bind .get fun _ => hP.passesFrom _

theorem runMore (hP : Upholds P) (made limit : Nat) : Steady P (runMore made limit) := by
  induction limit generalizing made with
  | zero => exact .pure _
  | succ limit ih => exact .bind hP.runPass fun ran => .ite (.pure _) (ih _)

end Upholds

end Kernel

end BytecodeKernel
