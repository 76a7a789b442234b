import BytecodeKernel.Kernel.Process
import BytecodeKernel.Proofs.Schedule.Starvation
import Mathlib.Data.List.Sort
import Mathlib.Logic.Basic
/-!
The comparison on counters of a fixed width, and the order of processes that are close in cycles.

A sum beyond the greatest counter stops there. No counter lies beyond it, so on the counters there
are the comparison is the one on unbounded numbers, and one direction alone holds. Among processes
within the gap of each other nobody is starved. Then the weights alone decide, none can be
overtaken, and the repeated scans come to what a sort by weight and age gives, wherever they start.
-/

namespace BytecodeKernel.Rank

/-- A sum of counters that stops at the greatest of them. -/
def cappedAdd (a b : Nat) : Nat :=
  min (a + b) (cycleLimit - 1)

/-- The comparison step by step, with sums that stop at the greatest counter. -/
def schedulesBefore (p q : Rank) : Bool :=
  if cappedAdd p.cycle starvationGap < q.cycle then true
  else if cappedAdd q.cycle starvationGap < p.cycle then false
  else
    match compare p.priority q.priority with
    | .gt => true
    | .lt => false
    | .eq => p.id < q.id

/-- The heavier first, and the older of two equals. -/
def weightOrder (p q : Rank) : Bool :=
  q.priority < p.priority ∨ p.priority = q.priority ∧ p.id ≤ q.id

/-- No two of the list are further apart in cycles than the gap. -/
def WithinGap (ranks : List Rank) : Prop :=
  ∀ p ∈ ranks, ∀ q ∈ ranks, p.cycle ≤ q.cycle + starvationGap

instance (ranks : List Rank) : Decidable (WithinGap ranks) :=
  inferInstanceAs (Decidable (∀ p ∈ ranks, ∀ q ∈ ranks, _))

/-! ### At the top of the range -/

/-- No counter exceeds a sum that was stopped, nor the sum it would have been. -/
theorem cappedAdd_lt_iff {a b c : Nat} (hc : c < cycleLimit) : cappedAdd a b < c ↔ a + b < c := by
  simp only [cappedAdd]
  omega

theorem schedulesBefore_iff {p q : Rank} (hp : p.cycle < cycleLimit) (hq : q.cycle < cycleLimit) :
    p.schedulesBefore q = true ↔ p.Precedes q := by
  simp only [schedulesBefore, cappedAdd_lt_iff hp, cappedAdd_lt_iff hq, Precedes]
  rcases hcompare : compare p.priority q.priority with _ | _ | _
  · have hlt : p.priority < q.priority := Nat.compare_eq_lt.1 hcompare
    grind
  · have heq : p.priority = q.priority := Nat.compare_eq_eq.1 hcompare
    grind
  · have hgt : q.priority < p.priority := Nat.compare_eq_gt.1 hcompare
    grind

/-- Between different processes one direction holds, and not the other. -/
theorem xor_precedes {p q : Rank} (h : p.id ≠ q.id) : Xor (p.Precedes q) (q.Precedes p) := by
  rcases precedes_or_precedes h with hpq | hqp
  · exact .inl ⟨hpq, hpq.asymm⟩
  · exact .inr ⟨hqp, hqp.asymm⟩

/-! ### Sorting by weight and age -/

theorem weightOrder_iff {p q : Rank} : p.weightOrder q = true ↔
    q.priority < p.priority ∨ p.priority = q.priority ∧ p.id ≤ q.id := by
  simp [weightOrder]

theorem weightOrder_trans (p q r : Rank) (hpq : p.weightOrder q = true)
    (hqr : q.weightOrder r = true) : p.weightOrder r = true := by
  rw [weightOrder_iff] at *
  omega

theorem weightOrder_total (p q : Rank) : (p.weightOrder q || q.weightOrder p) = true := by
  rw [Bool.or_eq_true, weightOrder_iff, weightOrder_iff]
  omega

/-- Weight and age together tell processes apart. -/
theorem weightOrder_antisymm {ranks : List Rank} (hids : (ranks.map Rank.id).Nodup) {p q : Rank}
    (hp : p ∈ ranks) (hq : q ∈ ranks) (hpq : p.weightOrder q) (hqp : q.weightOrder p) : p = q := by
  rw [weightOrder_iff] at hpq hqp
  apply List.inj_on_of_nodup_map hids hp hq
  omega

/-- A list in order of weight and age is the only such arrangement of its processes. -/
theorem eq_mergeSort_of_pairwise {ranks order : List Rank} (hids : (ranks.map Rank.id).Nodup)
    (hperm : order.Perm ranks) (horder : order.Pairwise fun p q => p.weightOrder q) :
    order = ranks.mergeSort weightOrder := by
  have hsorted : (ranks.mergeSort weightOrder).Pairwise fun p q => p.weightOrder q :=
    List.pairwise_mergeSort weightOrder_trans weightOrder_total ranks
  have hsame : (ranks.mergeSort weightOrder).Perm ranks := List.mergeSort_perm ranks weightOrder
  apply List.Perm.eq_of_pairwise _ horder hsorted (hperm.trans hsame.symm)
  intro p q hp hq hpq hqp
  exact weightOrder_antisymm hids (hperm.subset hp) (hsame.subset hq) hpq hqp

/-! ### Close in cycles -/

theorem WithinGap.of_subset {ranks others : List Rank} (h : WithinGap ranks)
    (hsub : others ⊆ ranks) : WithinGap others :=
  fun p hp q hq => h p (hsub hp) q (hsub hq)

/-- Nobody is starved, so nobody can be overtaken. -/
theorem WithinGap.noneOvertaken {ranks : List Rank} (h : WithinGap ranks) :
    NoneOvertaken ranks := by
  intro p hp q hq r _ hover
  have hclose : q.cycle ≤ p.cycle + starvationGap := h q hq p hp
  exact absurd hover.1 (Nat.not_lt.2 hclose)

theorem WithinGap.weightOrder_of_precedes {ranks : List Rank} (h : WithinGap ranks) {p q : Rank}
    (hp : p ∈ ranks) (hq : q ∈ ranks) (hpq : p.Precedes q) : p.weightOrder q := by
  rw [weightOrder_iff]
  have hclose : q.cycle ≤ p.cycle + starvationGap := h q hq p hp
  rcases hpq with hstarved | ⟨-, hweight⟩
  · exact absurd hstarved (Nat.not_lt.2 hclose)
  · omega

/-- However they are listed, processes close in cycles are served by weight and age. -/
theorem WithinGap.fairnessOrder_eq {ranks : List Rank} (h : WithinGap ranks)
    (hids : (ranks.map Rank.id).Nodup) {arrangement : List Rank} (hperm : arrangement.Perm ranks) :
    fairnessOrder arrangement = ranks.mergeSort weightOrder := by
  have hids' : (arrangement.map Rank.id).Nodup := (hperm.map Rank.id).nodup_iff.2 hids
  have hserved : (fairnessOrder arrangement).Perm ranks :=
    (fairnessOrder_perm arrangement).trans hperm
  have hpairwise : (fairnessOrder arrangement).Pairwise Precedes :=
    fairnessOrder_pairwise (h.of_subset hperm.subset).noneOvertaken hids'
  apply eq_mergeSort_of_pairwise hids hserved
  apply hpairwise.imp_of_mem
  intro p q hp hq hpq
  exact h.weightOrder_of_precedes (hserved.subset hp) (hserved.subset hq) hpq

/-- Any two of a list of different processes stand in the relation one way alone, counters at the
end of their range included; each process is served once; and if all are close in cycles, they are
served by weight and age, however they are listed. -/
theorem fairnessOrder_of_distinct {ranks : List Rank} (hids : (ranks.map Rank.id).Nodup)
    (hcycles : ∀ p ∈ ranks, p.cycle < cycleLimit) :
    (∀ p ∈ ranks, ∀ q ∈ ranks,
        (p.schedulesBefore q = true ↔ p.Precedes q) ∧
          (p ≠ q → Xor (p.schedulesBefore q = true) (q.schedulesBefore p = true))) ∧
      (fairnessOrder ranks).Perm ranks ∧
      (WithinGap ranks → ∀ arrangement : List Rank, arrangement.Perm ranks →
        fairnessOrder arrangement = ranks.mergeSort weightOrder) := by
  refine ⟨fun p hp q hq => ?_, fairnessOrder_perm ranks, fun hclose arrangement hperm => ?_⟩
  · have hpq := schedulesBefore_iff (hcycles p hp) (hcycles q hq)
    have hqp := schedulesBefore_iff (hcycles q hq) (hcycles p hp)
    refine ⟨hpq, fun hne => ?_⟩
    rw [hpq, hqp]
    exact xor_precedes fun hid => hne (List.inj_on_of_nodup_map hids hp hq hid)
  · exact hclose.fairnessOrder_eq hids hperm

/-- Three processes whose sums with the gap all stop at the greatest counter. -/
def topRanks : List Rank :=
  [⟨4, 30, cycleLimit - 1⟩, ⟨7, 60, cycleLimit - 20⟩, ⟨2, 30, cycleLimit - 3⟩]

theorem fairnessOrder_topRanks :
    (∀ p ∈ topRanks, p.cycle < cycleLimit) ∧ WithinGap topRanks ∧
      fairnessOrder topRanks.reverse =
        [⟨7, 60, cycleLimit - 20⟩, ⟨2, 30, cycleLimit - 3⟩, ⟨4, 30, cycleLimit - 1⟩] := by
  have hcycles : ∀ p ∈ topRanks, p.cycle < cycleLimit := by decide
  have hclose : WithinGap topRanks := by decide
  refine ⟨hcycles, hclose, ?_⟩
  rw [(fairnessOrder_of_distinct (by decide) hcycles).2.2 hclose _ (List.reverse_perm topRanks)]
  simp [topRanks, List.mergeSort, weightOrder]

end BytecodeKernel.Rank
