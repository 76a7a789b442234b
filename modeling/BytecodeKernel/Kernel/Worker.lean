/-!
Workers: each owns processes and hands out instructions to them.
-/

namespace BytecodeKernel

structure Worker where
  /-- The instructions it hands out in one pass. -/
  priority : Nat
  /-- Whether it runs passes and takes processes. -/
  awake : Bool := true
  /-- The processes it owns, in the order in which it got them. -/
  owned : List Nat := []

namespace Worker

def assign (w : Worker) (id : Nat) : Worker :=
  if id ∈ w.owned then w else { w with owned := w.owned ++ [id] }

def remove (w : Worker) (id : Nat) : Worker :=
  { w with owned := w.owned.filter (· ≠ id) }

@[simp] theorem mem_owned_assign (w : Worker) (id other : Nat) :
    other ∈ (w.assign id).owned ↔ other ∈ w.owned ∨ other = id := by
  unfold assign
  split
  · constructor
    · exact .inl
    · rintro (h | rfl) <;> assumption
  · simp

@[simp] theorem mem_owned_remove (w : Worker) (id other : Nat) :
    other ∈ (w.remove id).owned ↔ other ∈ w.owned ∧ other ≠ id := by
  simp [remove]

end Worker

end BytecodeKernel
