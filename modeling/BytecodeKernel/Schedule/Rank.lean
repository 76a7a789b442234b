/-!
Ranks and the fairness order. A process that lies far behind in cycles goes first whatever its
weight; otherwise the heavier goes first, and the older of two equals. The relation between two
ranks is asymmetric but not transitive, so a list is ordered by taking out one winner after the
other, each found in one scan.
-/

namespace BytecodeKernel

/-- What the scheduler weighs of a process. -/
structure Rank where
  id : Nat
  priority : Nat
  cycle : Nat
deriving DecidableEq

/-- A process more than this many cycles behind another goes first regardless of its weight. -/
def starvationGap : Nat := 20

namespace Rank

/-- Whether `p` is scheduled before `q`. -/
def Precedes (p q : Rank) : Prop :=
  p.cycle + starvationGap < q.cycle ∨
    ¬ q.cycle + starvationGap < p.cycle ∧
      (q.priority < p.priority ∨ p.priority = q.priority ∧ p.id < q.id)

instance (p q : Rank) : Decidable (p.Precedes q) :=
  inferInstanceAs (Decidable (_ ∨ _ ∧ _))

theorem Precedes.asymm {p q : Rank} (h : p.Precedes q) : ¬ q.Precedes p := by
  simp only [Precedes] at *
  omega

theorem not_precedes_self (p : Rank) : ¬ p.Precedes p :=
  fun h => h.asymm h

/-- Two ranks of different processes stand in the relation one way or the other. -/
theorem precedes_or_precedes {p q : Rank} (h : p.id ≠ q.id) : p.Precedes q ∨ q.Precedes p := by
  simp only [Precedes]
  omega

/-- One scan from left to right. `best` stands behind `before` and in front of `between`, and gives
way to any rank that precedes it. The winner, and the others in their order. -/
def select (before : List Rank) (best : Rank) (between : List Rank) :
    List Rank → Rank × List Rank
  | [] => (best, before ++ between)
  | r :: rest =>
    if r.Precedes best then select (before ++ best :: between) r [] rest
    else select before best (between ++ [r]) rest

/-- The first `count` winners, each taken from what the ones before it left. -/
def winners : Nat → List Rank → List Rank
  | 0, _ | _, [] => []
  | count + 1, r :: rest =>
    let (best, others) := select [] r [] rest
    best :: winners count others

/-- The order in which processes are served. -/
def fairnessOrder (ranks : List Rank) : List Rank :=
  winners ranks.length ranks

theorem select_perm (before : List Rank) (best : Rank) (between rest : List Rank) :
    ((select before best between rest).1 :: (select before best between rest).2).Perm
      (before ++ best :: between ++ rest) := by
  induction rest generalizing before best between with
  | nil => simpa [select] using List.perm_middle.symm
  | cons r rest ih =>
    simp only [select]
    split
    · simpa using ih (before ++ best :: between) r []
    · simpa using ih before best (between ++ [r])

theorem length_select (before : List Rank) (best : Rank) (between rest : List Rank) :
    (select before best between rest).2.length = before.length + between.length + rest.length := by
  have h := (select_perm before best between rest).length_eq
  simp only [List.length_cons, List.length_append] at h
  omega

theorem fairnessOrder_cons (r : Rank) (rest : List Rank) :
    fairnessOrder (r :: rest)
      = (select [] r [] rest).1 :: fairnessOrder (select [] r [] rest).2 := by
  have h : (select [] r [] rest).2.length = rest.length := by simp [length_select]
  simp [fairnessOrder, winners, h]

theorem winners_perm (ranks : List Rank) {count : Nat} (h : ranks.length = count) :
    (winners count ranks).Perm ranks := by
  induction count generalizing ranks with
  | zero => simp [winners, List.length_eq_zero_iff.1 h]
  | succ count ih =>
    cases ranks with
    | nil => simp at h
    | cons r rest =>
      have hlength : (select [] r [] rest).2.length = count := by
        simpa [length_select] using h
      exact ((ih _ hlength).cons _).trans (select_perm [] r [] rest)

/-- Every process is served once. -/
theorem fairnessOrder_perm (ranks : List Rank) : (fairnessOrder ranks).Perm ranks :=
  winners_perm ranks rfl

end Rank

end BytecodeKernel
