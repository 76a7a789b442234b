import BytecodeKernel.Kernel.System
import BytecodeKernel.Proofs.Memory.Soundness
/-!
How the budget is allotted to the workers. Settings are made one after the other, in any order and
with any arguments, and keep the bounds between them. The workers of a kernel have equal shares of
its budget, and what these leave of it is not enough for one more instruction each. The shares of
fewer than 2^32 workers are within the budget. Of a larger number the divisor has the lower 32 bits
only: where they are zero there is no share, and else the shares exceed the budget, but for a
divisor above the budget, with which each share is nothing.
-/

namespace BytecodeKernel

/-- A setting with its argument, which is of the width that the setting takes. -/
inductive Setting where
  | arenaBytes (bytes : UInt32)
  | maxArenaBytes (bytes : UInt32)
  | workers (count : UInt64)
  | priorityBudget (budget : UInt32)
  | heapBytes (bytes : UInt32)
  | stackBytes (bytes : UInt32)
  | maxProcesses (count : UInt32)
  | storageSite (site : StorageSite)
  | console (console : Console)
  | idleBackoff (ms : Nat)

namespace Settings

variable {s : Settings} {share : Nat}

/-! ### Bounds between settings -/

def adopt (s : Settings) : Setting → Settings
  | .arenaBytes bytes => s.withArenaBytes bytes.toNat
  | .maxArenaBytes bytes => s.withMaxArenaBytes bytes.toNat
  | .workers count => s.withWorkers count.toNat
  | .priorityBudget budget => { s with priorityBudget := budget.toNat }
  | .heapBytes bytes => { s with heapBytes := bytes.toNat }
  | .stackBytes bytes => { s with stackBytes := bytes.toNat }
  | .maxProcesses count => s.withMaxProcesses count.toNat
  | .storageSite site => { s with storageSite := some site }
  | .console console => { s with console }
  | .idleBackoff ms => { s with idleBackoffMs := ms }

def adoptAll (s : Settings) (made : List Setting) : Settings :=
  made.foldl adopt s

/-- The bounds that the setters keep, and the width of the budget. -/
structure Bounded (s : Settings) : Prop where
  arena_le : s.arenaBytes ≤ s.maxArenaBytes
  workers_pos : 1 ≤ s.workers
  processes_le : s.maxProcesses ≤ processLimit
  budget_lt : s.priorityBudget < divisorLimit

theorem bounded_default : ({} : Settings).Bounded where
  arena_le := by decide
  workers_pos := by decide
  processes_le := Nat.le_refl processLimit
  budget_lt := by decide

/-- A larger arena takes its limit along, a limit below the arena is raised to it, and the numbers
of workers and of processes are cut to what is allowed. -/
theorem Bounded.adopt (h : s.Bounded) (setting : Setting) : (s.adopt setting).Bounded := by
  cases setting with
  | arenaBytes bytes => exact { h with arena_le := Nat.le_max_right _ _ }
  | maxArenaBytes bytes => exact { h with arena_le := Nat.le_max_right _ _ }
  | workers count => exact { h with workers_pos := Nat.le_max_right _ _ }
  | maxProcesses count => exact { h with processes_le := Nat.min_le_right _ _ }
  | priorityBudget budget => exact { h with budget_lt := budget.toNat_lt }
  | heapBytes | stackBytes | storageSite | console | idleBackoff => exact { h with }

theorem Bounded.adoptAll (h : s.Bounded) (made : List Setting) : (s.adoptAll made).Bounded := by
  induction made generalizing s with
  | nil => exact h
  | cons setting rest ih => exact ih (h.adopt setting)

theorem Bounded.workerCount_eq (h : s.Bounded) : s.workerCount = s.workers :=
  Nat.max_eq_left h.workers_pos

/-! ### Shares of the budget -/

theorem workerPriority?_eq_some_iff : s.workerPriority? = some share ↔
    0 < s.workerCount % divisorLimit ∧
      s.priorityBudget / (s.workerCount % divisorLimit) = share := by
  rw [workerPriority?, Nat.pos_iff_ne_zero]
  split <;> simp [*]

/-- There is a share unless nothing of the number of workers is left for a divisor. -/
theorem exists_workerPriority?_iff :
    (∃ share, s.workerPriority? = some share) ↔ ¬ divisorLimit ∣ s.workerCount := by
  simp only [workerPriority?_eq_some_iff, exists_and_left, exists_eq', and_true]
  rw [Nat.pos_iff_ne_zero, Ne, Nat.dvd_iff_mod_eq_zero]

/-- The divisor is never above the number of workers, so no share is too small. -/
theorem budget_lt_of_workerPriority? (h : s.workerPriority? = some share) :
    s.priorityBudget < s.workerCount * share + s.workerCount := by
  obtain ⟨hpos, rfl⟩ := workerPriority?_eq_some_iff.1 h
  calc s.priorityBudget
      < s.workerCount % divisorLimit *
          (s.priorityBudget / (s.workerCount % divisorLimit) + 1) :=
        Nat.lt_mul_div_succ s.priorityBudget hpos
    _ ≤ s.workerCount * (s.priorityBudget / (s.workerCount % divisorLimit) + 1) :=
        Nat.mul_le_mul_right _ (Nat.mod_le _ _)

/-- Where the divisor is the number of workers, their shares are within the budget. Where it is
less, there are more workers than there is budget, so that only shares of nothing are. -/
theorem shares_le_iff (hs : s.Bounded) (h : s.workerPriority? = some share) :
    s.workerCount * share ≤ s.priorityBudget ↔
      s.workerCount < divisorLimit ∨ s.priorityBudget < s.workerCount % divisorLimit := by
  rcases Nat.lt_or_ge s.workerCount divisorLimit with hfew | hmany
  · refine iff_of_true ?_ (.inl hfew)
    rw [workerPriority?_eq_some (hs.workerCount_eq ▸ hfew)] at h
    rw [← Option.some.inj h]
    exact Nat.mul_div_le s.priorityBudget s.workerCount
  · rw [or_iff_right (Nat.not_lt.2 hmany)]
    obtain ⟨hpos, rfl⟩ := workerPriority?_eq_some_iff.1 h
    constructor
    · intro hle
      -- An instruction each for so many workers is more than any budget has.
      by_contra hlarge
      have hshare := Nat.div_pos (Nat.not_lt.1 hlarge) hpos
      have hspent := Nat.le_mul_of_pos_right s.workerCount hshare
      exact absurd hs.budget_lt (Nat.not_lt.2 (hmany.trans (hspent.trans hle)))
    · intro hsmall
      rw [Nat.div_eq_of_lt hsmall]
      exact Nat.zero_le _

/-- A share that all workers can have together, and that could not be larger, is given under the
same condition: then the divisor is not zero. -/
theorem exists_fitting_share_iff (hs : s.Bounded) :
    (∃ share, s.workerPriority? = some share ∧ s.workerCount * share ≤ s.priorityBudget ∧
        s.priorityBudget < s.workerCount * share + s.workerCount) ↔
      s.workerCount < divisorLimit ∨ s.priorityBudget < s.workerCount % divisorLimit := by
  constructor
  · rintro ⟨share, hshare, hle, -⟩
    exact (shares_le_iff hs hshare).1 hle
  · intro hfit
    have hleft : s.workerCount % divisorLimit ≠ 0 := by
      rcases hfit with hfew | hsmall
      · rw [Nat.mod_eq_of_lt hfew, hs.workerCount_eq]
        exact Nat.ne_zero_of_lt hs.workers_pos
      · exact Nat.ne_zero_of_lt hsmall
    obtain ⟨share, hshare⟩ := exists_workerPriority?_iff.2 (mt Nat.mod_eq_zero_of_dvd hleft)
    exact ⟨share, hshare, (shares_le_iff hs hshare).2 hfit, budget_lt_of_workerPriority? hshare⟩

/-- The workers of a new kernel are all alike. -/
theorem exists_kernel_create (hshare : s.workerPriority? = some share)
    (hsite : s.storageSite ≠ some .plainFile) :
    ∃ k, Kernel.create s = .ok k ∧
      k.1.workers = List.replicate s.workerCount { priority := share } := by
  obtain ⟨system, hsystem⟩ := System.exists_create hsite
  refine ⟨(system, .withLimit s.arenaBytes s.maxArenaBytes), ?_, ?_⟩
  · rw [Kernel.create, hsystem]
    rfl
  · obtain ⟨storage, rfl⟩ := System.create_eq_ok hsystem
    rw [hshare, Option.getD_some]

/-- After any settings, and so after each of them, the bounds hold. There is a share unless 2^32
divides the number of workers. A kernel is then made with so many workers that have this share each,
and what is left of the budget is less than their number. The division is fair, with shares that
exist and are within the budget, exactly where the workers are fewer than 2^32 or the budget is less
than the divisor that is left of their number. -/
theorem allotment_of_settings (made : List Setting) :
    let s := ({} : Settings).adoptAll made
    (s.arenaBytes ≤ s.maxArenaBytes ∧ 1 ≤ s.workers ∧ s.maxProcesses ≤ processLimit) ∧
      ((∃ share, s.workerPriority? = some share) ↔ ¬ divisorLimit ∣ s.workers) ∧
      (∀ share, s.workerPriority? = some share →
        s.priorityBudget < s.workers * share + s.workers ∧
        (s.storageSite ≠ some .plainFile → ∃ k, Kernel.create s = .ok k ∧
          k.1.workers = List.replicate s.workers { priority := share })) ∧
      ((∃ share, s.workerPriority? = some share ∧ s.workers * share ≤ s.priorityBudget ∧
          s.priorityBudget < s.workers * share + s.workers) ↔
        s.workers < divisorLimit ∨ s.priorityBudget < s.workers % divisorLimit) := by
  intro s
  have hs : s.Bounded := bounded_default.adoptAll made
  rw [← hs.workerCount_eq]
  refine ⟨⟨hs.arena_le, ?_, hs.processes_le⟩, exists_workerPriority?_iff, ?_,
    exists_fitting_share_iff hs⟩
  · exact hs.workerCount_eq ▸ hs.workers_pos
  · exact fun share hshare => ⟨budget_lt_of_workerPriority? hshare, exists_kernel_create hshare⟩

/-- Settings that cut each other, of which seven workers are left. -/
def cutSettings : List Setting :=
  [.arenaBytes 300000000, .maxArenaBytes 1, .workers 0, .maxProcesses 70000, .workers 7,
    .priorityBudget 100]

/-- Two instructions of a hundred are not given to any of the seven. -/
theorem allotment_of_cutSettings :
    (({} : Settings).adoptAll cutSettings).maxArenaBytes = 300000000 ∧
      (({} : Settings).adoptAll cutSettings).workerPriority? = some 14 ∧
      (∃ k, Kernel.create (({} : Settings).adoptAll cutSettings) = .ok k ∧
        k.1.workers = List.replicate 7 { priority := 14 }) ∧
      7 * 14 ≤ 100 ∧ 100 < 7 * 14 + 7 := by
  have hshare : (({} : Settings).adoptAll cutSettings).workerPriority? = some 14 := by
    decide +kernel
  obtain ⟨-, -, hmade, hfit⟩ := allotment_of_settings cutSettings
  obtain ⟨share, hsome, hle, hlt⟩ := hfit.2 (.inl (by decide +kernel))
  obtain rfl := Option.some.inj (hshare.symm.trans hsome)
  exact ⟨by decide +kernel, hshare, (hmade 14 hshare).2 (by decide +kernel), hle, hlt⟩

/-- Of 2^32 workers nothing is left to divide the budget by, and with one more each of them has all
of it. -/
theorem allotment_overspent :
    (({} : Settings).adoptAll [.workers 4294967296]).workerPriority? = none ∧
      let s := ({} : Settings).adoptAll [.workers 4294967297]
      s.workers = 4294967297 ∧ s.priorityBudget = 10000 ∧ s.workerPriority? = some 10000 ∧
        ¬ s.workers * 10000 ≤ s.priorityBudget := by
  decide +kernel

end Settings

end BytecodeKernel
