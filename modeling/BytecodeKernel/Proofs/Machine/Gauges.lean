import BytecodeKernel.Machine.Stack
import Mathlib.Data.List.Basic
/-!
Gauges: what decides when a stack resizes. That is the size its region began with, the size it has
and the top, and nothing else of the stack or of the arena. A push that leaves less than the
headroom wants to grow, a pop that leaves more than two increments unused wants to shrink, and
between the two there is a gap: right after a resize neither is near.
-/

namespace BytecodeKernel.Stack

/-- What moves the top of a stack. -/
inductive Shift where
  | push (v : Int64)
  | pop
deriving DecidableEq

/-- The size that the operand region began with, the size it has, and the bytes in use. -/
structure Gauge where
  first : Nat
  size : Nat
  top : Nat
deriving DecidableEq

def gauge (s : Stack) : Gauge :=
  ⟨s.initialSize, s.size, s.top⟩

namespace Gauge

/-- Where the top goes. -/
def moved (g : Gauge) : Shift → Nat
  | .push _ => g.top + slotSize
  | .pop => g.top - slotSize

/-- The size that the region should have instead, if it should. -/
def wants? (g : Gauge) : Shift → Option Nat
  | .push _ =>
    if g.size < g.top + slotSize + growHeadroom then some (g.size + growBytes) else none
  | .pop =>
    if slotSize ≤ g.top ∧ g.top - slotSize + 2 * growBytes < g.size ∧
        g.first ≤ g.size - growBytes then some (g.size - growBytes)
    else none

/-- The gauge after a push or a pop that was given what it wants. -/
def turn (g : Gauge) (shift : Shift) : Gauge :=
  { g with size := (g.wants? shift).getD g.size, top := g.moved shift }

def run (g : Gauge) (shifts : List Shift) : Gauge :=
  shifts.foldl turn g

/-- What holds of a stack that was always given what it wants: the region has grown by whole
increments, the headroom is free, and of a region that has grown no more than two increments are. -/
structure Steady (g : Gauge) : Prop where
  least : growHeadroom + slotSize ≤ g.first
  steps : ∃ k, g.size = g.first + k * growBytes
  headroom : g.top + growHeadroom ≤ g.size
  slack : g.first < g.size → g.size ≤ g.top + 2 * growBytes
  whole : slotSize ∣ g.top

variable {g : Gauge} {v : Int64} {shift : Shift} {vs : List Int64} {n : Nat}

/-- How a stack begins that is asked for with some size. -/
def fresh (size : Nat) : Gauge where
  first := max size (growHeadroom + slotSize)
  size := max size (growHeadroom + slotSize)
  top := 0

theorem steady_fresh (size : Nat) : (fresh size).Steady where
  least := Nat.le_max_right _ _
  steps := ⟨0, by rw [Nat.zero_mul, Nat.add_zero]; rfl⟩
  headroom := by
    simp only [fresh, growHeadroom, slotSize]
    omega
  slack h := absurd h (Nat.lt_irrefl _)
  whole := Nat.dvd_zero _

/-! ### One turn -/

@[simp] theorem first_turn (g : Gauge) (shift : Shift) : (g.turn shift).first = g.first := rfl

@[simp] theorem top_turn_push (g : Gauge) (v : Int64) :
    (g.turn (.push v)).top = g.top + slotSize := rfl

@[simp] theorem top_turn_pop (g : Gauge) : (g.turn .pop).top = g.top - slotSize := rfl

/-- A push grows the region or leaves its size. -/
theorem size_turn_push (g : Gauge) (v : Int64) :
    g.size < g.top + slotSize + growHeadroom ∧ (g.turn (.push v)).size = g.size + growBytes ∨
      g.top + slotSize + growHeadroom ≤ g.size ∧ (g.turn (.push v)).size = g.size := by
  simp only [turn, wants?]
  split
  · exact .inl ⟨‹_›, rfl⟩
  · exact .inr ⟨Nat.not_lt.1 ‹_›, rfl⟩

/-- A pop shrinks the region or leaves its size. -/
theorem size_turn_pop (g : Gauge) :
    (slotSize ≤ g.top ∧ g.top - slotSize + 2 * growBytes < g.size ∧
        g.first ≤ g.size - growBytes) ∧ (g.turn .pop).size = g.size - growBytes ∨
      ¬ (slotSize ≤ g.top ∧ g.top - slotSize + 2 * growBytes < g.size ∧
        g.first ≤ g.size - growBytes) ∧ (g.turn .pop).size = g.size := by
  simp only [turn, wants?]
  split
  · exact .inl ⟨‹_›, rfl⟩
  · exact .inr ⟨‹_›, rfl⟩

theorem Steady.turn_push (hg : g.Steady) (v : Int64) : (g.turn (.push v)).Steady := by
  obtain ⟨hleast, ⟨k, hsteps⟩, hheadroom, hslack, hwhole⟩ := hg
  have hsize := size_turn_push g v
  refine ⟨hleast, ?_, ?_, ?_, Nat.dvd_add hwhole (Nat.dvd_refl _)⟩
  · rcases hsize with ⟨-, hgrown⟩ | ⟨-, hsame⟩
    · exact ⟨k + 1, by rw [hgrown, hsteps, first_turn, Nat.add_mul, Nat.one_mul, Nat.add_assoc]⟩
    · exact ⟨k, hsame.trans hsteps⟩
  all_goals
    simp only [top_turn_push, first_turn, slotSize, growBytes, growHeadroom] at *
    omega

theorem Steady.turn_pop (hg : g.Steady) : (g.turn .pop).Steady := by
  obtain ⟨hleast, ⟨k, hsteps⟩, hheadroom, hslack, hwhole⟩ := hg
  have hsize := size_turn_pop g
  refine ⟨hleast, ?_, ?_, ?_, Nat.dvd_sub hwhole (Nat.dvd_refl _)⟩
  · rcases hsize with ⟨⟨-, -, hfloor⟩, hshrunk⟩ | ⟨-, hsame⟩
    · refine ⟨k - 1, ?_⟩
      simp only [first_turn, growHeadroom, slotSize, growBytes] at *
      omega
    · exact ⟨k, hsame.trans hsteps⟩
  all_goals
    simp only [top_turn_pop, first_turn, slotSize, growBytes, growHeadroom] at *
    omega

theorem Steady.turn (hg : g.Steady) (shift : Shift) : (g.turn shift).Steady := by
  cases shift with
  | push v => exact hg.turn_push v
  | pop => exact hg.turn_pop

/-! ### Between two resizes -/

/-- How many turns it takes at least to come to a resize. -/
def ease (g : Gauge) : Nat :=
  min ((g.size - g.top - growHeadroom) / slotSize)
    ((2 * growBytes - (g.size - g.top)) / slotSize)

/-- One turn takes at most one from the ease. -/
theorem Steady.ease_le (hg : g.Steady) (shift : Shift) : g.ease ≤ (g.turn shift).ease + 1 := by
  have hheadroom := hg.headroom
  cases shift with
  | push v =>
    have hsize := size_turn_push g v
    simp only [ease, top_turn_push, slotSize, growBytes, growHeadroom] at *
    omega
  | pop =>
    have hsize := size_turn_pop g
    simp only [ease, top_turn_pop, slotSize, growBytes, growHeadroom] at *
    omega

/-- A turn that resizes has no ease before it, and much of it behind. -/
theorem Steady.ease_of_resize (hg : g.Steady) (h : (g.turn shift).size ≠ g.size) :
    g.ease = 0 ∧ 28 ≤ (g.turn shift).ease := by
  obtain ⟨hleast, -, hheadroom, hslack, -⟩ := hg
  cases shift with
  | push v =>
    have hsize := size_turn_push g v
    simp only [ease, top_turn_push, slotSize, growBytes, growHeadroom] at *
    omega
  | pop =>
    have hsize := size_turn_pop g
    simp only [ease, top_turn_pop, slotSize, growBytes, growHeadroom] at *
    omega

/-! ### There and back -/

theorem Steady.run (hg : g.Steady) (shifts : List Shift) : (g.run shifts).Steady := by
  induction shifts generalizing g with
  | nil => exact hg
  | cons shift rest ih => exact ih (hg.turn shift)

@[simp] theorem first_run (g : Gauge) (shifts : List Shift) : (g.run shifts).first = g.first := by
  induction shifts generalizing g with
  | nil => rfl
  | cons shift rest ih => exact ih (g.turn shift)

theorem run_append (g : Gauge) (shifts more : List Shift) :
    g.run (shifts ++ more) = (g.run shifts).run more :=
  List.foldl_append

@[simp] theorem top_run_push (g : Gauge) (vs : List Int64) :
    (g.run (vs.map .push)).top = g.top + vs.length * slotSize := by
  induction vs generalizing g with
  | nil => simp [run]
  | cons v rest ih =>
    refine (ih (g.turn (.push v))).trans ?_
    rw [top_turn_push, List.length_cons, Nat.add_mul]
    omega

@[simp] theorem top_run_pop (g : Gauge) (n : Nat) :
    (g.run (List.replicate n .pop)).top = g.top - n * slotSize := by
  induction n generalizing g with
  | zero => simp [run]
  | succ n ih =>
    refine (ih (g.turn .pop)).trans ?_
    rw [top_turn_pop, Nat.add_mul]
    omega

/-- With no more pops than pushes before them, none finds the stack empty. -/
theorem top_ne_zero_before_pop {before after : List Shift}
    (h : vs.map .push ++ List.replicate vs.length .pop = before ++ .pop :: after) (g : Gauge) :
    (g.run before).top ≠ 0 := by
  rcases List.append_eq_append_iff.1 h with ⟨pops, rfl, hpops⟩ | ⟨pushes, hpushes, hafter⟩
  · obtain ⟨hlength, hreplicate, -⟩ := List.replicate_eq_append_iff.1 hpops
    rw [List.length_cons] at hlength
    rw [run_append, hreplicate, top_run_pop, top_run_push]
    simp only [slotSize]
    omega
  · cases pushes with
    | nil =>
      have hpos : vs.length ≠ 0 := by
        intro hzero
        simp [hzero] at hafter
      rw [List.append_nil] at hpushes
      rw [← hpushes, top_run_push]
      simp only [slotSize]
      omega
    | cons shift rest =>
      obtain ⟨rfl, -⟩ := List.cons.inj hafter
      have hmem : Shift.pop ∈ vs.map .push := hpushes ▸ List.mem_append_right _ List.mem_cons_self
      simp at hmem

/-- As many pops as pushes before them leave the top where it was. -/
theorem top_run_back (g : Gauge) (vs : List Int64) :
    (g.run (vs.map .push ++ List.replicate vs.length .pop)).top = g.top := by
  rw [run_append, top_run_pop, top_run_push, Nat.add_sub_cancel]

/-- What fits into the first size is pushed without a resize. -/
theorem size_run_push (hg : g.size = g.first)
    (hfits : g.top + vs.length * slotSize + growHeadroom ≤ g.first) :
    (g.run (vs.map .push)).size = g.first := by
  induction vs generalizing g with
  | nil => exact hg
  | cons v rest ih =>
    have hsize := size_turn_push g v
    rw [List.length_cons, Nat.add_mul] at hfits
    refine ih (g := g.turn (.push v)) ?_ ?_
    · rw [first_turn]
      omega
    · rw [top_turn_push, first_turn]
      omega

/-- A region of the first size does not shrink. -/
theorem Steady.size_run_pop (hg : g.Steady) (h : g.size = g.first) :
    (g.run (List.replicate n .pop)).size = g.first := by
  induction n generalizing g with
  | zero => exact h
  | succ n ih =>
    have hleast := hg.least
    have hsize := size_turn_pop g
    refine ih (g := g.turn .pop) hg.turn_pop ?_
    rw [first_turn]
    simp only [growHeadroom, slotSize, growBytes] at *
    omega

/-- A region that began with an increment at most, and has grown, keeps one. -/
theorem lt_size_run_pop (hfirst : g.first ≤ growBytes) (h : g.first < g.size) :
    g.first < (g.run (List.replicate n .pop)).size := by
  induction n generalizing g with
  | zero => exact h
  | succ n ih =>
    have hsize := size_turn_pop g
    refine ih (g := g.turn .pop) hfirst ?_
    rw [first_turn]
    simp only [slotSize, growBytes] at *
    omega

/-- An empty region is of its first size, or of one increment more. -/
theorem Steady.size_of_top_eq_zero (hg : g.Steady) (htop : g.top = 0) :
    g.size = g.first ∨ g.first ≤ growBytes ∧ g.size = g.first + growBytes := by
  obtain ⟨hleast, ⟨k, hsteps⟩, -, hslack, -⟩ := hg
  simp only [growHeadroom, slotSize, growBytes] at *
  omega

/-- As many pops as pushes before them bring a fresh stack back to its first size, unless that is
one increment at most and was too small for the pushes. One increment stays then: with it and the
first size empty, no more than two increments are unused. -/
theorem Steady.size_run_back (hg : g.Steady) (htop : g.top = 0) (hfresh : g.size = g.first)
    (vs : List Int64) :
    (g.run (vs.map .push ++ List.replicate vs.length .pop)).size =
      if g.first ≤ growBytes ∧ g.first < vs.length * slotSize + growHeadroom
        then g.first + growBytes else g.first := by
  have hpushed := hg.run (vs.map .push)
  have hfirst : (g.run (vs.map .push)).first = g.first := first_run _ _
  have htop' : (g.run (vs.map .push)).top = vs.length * slotSize := by
    rw [top_run_push, htop, Nat.zero_add]
  have hempty := (hg.run _).size_of_top_eq_zero ((top_run_back g vs).trans htop)
  rw [first_run] at hempty
  split
  · rename_i hsmall
    have hroom := hpushed.headroom
    have hgrown := lt_size_run_pop (n := vs.length) (hfirst ▸ hsmall.1) (by omega)
    rw [hfirst, ← run_append] at hgrown
    omega
  · rename_i hlarge
    by_cases hfits : vs.length * slotSize + growHeadroom ≤ g.first
    · have hroom : g.top + vs.length * slotSize + growHeadroom ≤ g.first := by omega
      have hsame := size_run_push hfresh hroom
      rw [run_append]
      exact (hpushed.size_run_pop (hsame.trans hfirst.symm)).trans hfirst
    · omega

end Gauge

end BytecodeKernel.Stack
