import BytecodeKernel.Proofs.Kernel.Registry
/-!
The creation of a process. It gets the next identity, which stands behind all others, so it is a new
child of its parent and of no one else. An identity that is handed out is used up, also when there
is no memory for the process.
-/

namespace BytecodeKernel

namespace Process

theorem mem_children_addChild {p : Process} {child c : Nat} :
    c ∈ (p.addChild child).children ↔ c ∈ p.children ∨ c = child := by
  rw [addChild]
  split
  · constructor
    · exact .inl
    · rintro (h | rfl) <;> assumption
  · simp

theorem prefix_children_addChild (p : Process) (child : Nat) :
    p.children <+: (p.addChild child).children := by
  rw [addChild]
  split
  · exact List.prefix_refl _
  · exact List.prefix_append _ _

theorem nodup_children_addChild {p : Process} (h : p.children.Nodup) (child : Nat) :
    (p.addChild child).children.Nodup := by
  rw [addChild]
  split
  · exact h
  · rename_i hnew
    exact List.nodup_append.2 ⟨h, List.nodup_singleton _, fun c hc d hd => by
      rw [List.mem_singleton.1 hd]
      exact fun heq => hnew (heq ▸ hc)⟩

theorem halted_addChild (p : Process) (child : Nat) : (p.addChild child).halted = p.halted := by
  rw [addChild]
  split <;> rfl

theorem id_addChild (p : Process) (child : Nat) : (p.addChild child).id = p.id := by
  rw [addChild]
  split <;> rfl

theorem image_addChild (p : Process) (child : Nat) : (p.addChild child).image = p.image := by
  rw [addChild]
  split <;> rfl

theorem context_addChild (p : Process) (child : Nat) : (p.addChild child).context = p.context := by
  rw [addChild]
  split <;> rfl

theorem Bare.addChild {p : Process} (h : p.Bare) (child : Nat) : (p.addChild child).Bare := by
  rw [Process.addChild]
  split
  · exact h
  · exact ⟨h.active, h.image, h.context⟩

end Process

namespace System

variable {s : System} {ending : Set Nat} {parent : Option Nat} {context : Context}

/-- The system in which the next identity was handed out. -/
def counted (s : System) : System :=
  { s with nextId := s.nextId + 1 }

/-- The next process is entered. -/
def entered (s : System) (parent : Option Nat) (context : Context) : System :=
  s.counted.enter parent s.nextId context

theorem nextId_entered (s : System) (parent : Option Nat) (context : Context) :
    (s.entered parent context).nextId = s.nextId + 1 := by
  simp only [entered, enter]
  cases parent <;> rfl

theorem process?_entered (s : System) (parent : Option Nat) (context : Context) (j : Nat) :
    (s.entered parent context).process? j =
      if j = s.nextId then some { id := s.nextId, context := some context }
      else if parent = some j then (s.process? j).map (·.addChild s.nextId) else s.process? j := by
  simp only [entered, enter]
  simp only [process?, Std.TreeMap.getElem?_insert, Nat.compare_eq_eq]
  by_cases hj : s.nextId = j
  · rw [if_pos hj, if_pos hj.symm]
  · rw [if_neg hj, if_neg (Ne.symm hj)]
    cases parent with
    | none => rfl
    | some i =>
      simp only [Option.some.injEq]
      show (s.counted.modifyProcess i (·.addChild s.nextId)).process? j = _
      rw [process?_modifyProcess]
      by_cases hi : i = j
      · rw [if_pos hi, if_pos hi, hi]
        rfl
      · rw [if_neg hi, if_neg hi]
        rfl

/-- A record of the new system is the new one or an old one, with the new process as a child at
most. -/
theorem process?_entered_eq_some {j : Nat} {q : Process}
    (h : (s.entered parent context).process? j = some q) :
    (j = s.nextId ∧ q = { id := s.nextId, context := some context }) ∨
      j ≠ s.nextId ∧ ∃ p, s.process? j = some p ∧
        (q = p ∨ parent = some j ∧ q = p.addChild s.nextId) := by
  rw [process?_entered] at h
  split at h
  · rename_i hj
    exact .inl ⟨hj, (Option.some.inj h).symm⟩
  · rename_i hj
    refine .inr ⟨hj, ?_⟩
    split at h
    · rename_i hparent
      obtain ⟨p, hp, heq⟩ := Option.map_eq_some_iff.1 h
      exact ⟨p, hp, .inr ⟨hparent, heq.symm⟩⟩
    · exact ⟨q, h, .inl rfl⟩

/-- An old record stays, with the new process as a child at most. -/
theorem exists_process?_entered {j : Nat} {p : Process} (hp : s.process? j = some p)
    (hj : j ≠ s.nextId) (parent : Option Nat) (context : Context) :
    ∃ q, (s.entered parent context).process? j = some q ∧
      (q = p ∨ parent = some j ∧ q = p.addChild s.nextId) := by
  rw [process?_entered, if_neg hj, hp]
  split
  · rename_i hparent
    exact ⟨_, rfl, .inr ⟨hparent, rfl⟩⟩
  · exact ⟨p, rfl, .inl rfl⟩

theorem process?_entered_ne_none_iff {j : Nat} :
    (s.entered parent context).process? j ≠ none ↔ j = s.nextId ∨ s.process? j ≠ none := by
  rw [process?_entered]
  by_cases hj : j = s.nextId
  · simp [hj]
  · rw [if_neg hj]
    split <;> simp [hj]

theorem isRegistered_entered {j : Nat} :
    (s.entered parent context).IsRegistered j ↔ j = s.nextId ∨ s.IsRegistered j := by
  have hregistry : (s.entered parent context).registry = s.registry.insert s.nextId := by
    simp only [entered, enter]
    cases parent <;> rfl
  show j ∈ (s.entered parent context).registry ↔ j = s.nextId ∨ j ∈ s.registry
  rw [hregistry, Std.TreeSet.mem_insert, Nat.compare_eq_eq, @eq_comm _ s.nextId j]

theorem owned_entered (s : System) (parent : Option Nat) (context : Context) :
    (s.entered parent context).owned = s.owned := by
  simp only [entered, enter]
  cases parent <;> rfl

theorem Related.process?_nextId (h : s.Related) : s.process? s.nextId = none := by
  cases hp : s.process? s.nextId with
  | none => rfl
  | some p => exact absurd (h.named _ p hp).2 (Nat.lt_irrefl _)

theorem Orderly.not_isRegistered_nextId (h : s.Orderly ending) : ¬ s.IsRegistered s.nextId := by
  intro hregistered
  obtain ⟨p, hp, -⟩ := h.recorded.alive _ hregistered
  exact Option.some_ne_none p (hp.symm.trans h.related.process?_nextId)

theorem Orderly.nextId_not_mem_owned (h : s.Orderly ending) {w : Worker} (hw : w ∈ s.workers) :
    s.nextId ∉ w.owned := by
  intro howned
  apply h.not_isRegistered_nextId
  exact h.staffed.registered _ (List.mem_flatMap.2 ⟨w, hw, howned⟩)

theorem Related.entered (h : s.Related) (parent : Option Nat) (context : Context) :
    (s.entered parent context).Related := by
  have hcounter := nextId_entered s parent context
  refine ⟨?_, ?_, ?_, ?_⟩
  · intro j q hq
    rw [hcounter]
    rcases process?_entered_eq_some hq with ⟨rfl, rfl⟩ | ⟨-, p, hp, hq⟩
    · exact ⟨rfl, Nat.lt_succ_self _⟩
    · obtain ⟨hid, hlt⟩ := h.named j p hp
      refine ⟨?_, Nat.lt_succ_of_lt hlt⟩
      rcases hq with rfl | ⟨-, rfl⟩
      · exact hid
      · rw [Process.id_addChild, hid]
  · intro j q hq c hc
    rw [hcounter]
    rcases process?_entered_eq_some hq with ⟨rfl, rfl⟩ | ⟨-, p, hp, hq⟩
    · contradiction
    · have hold : ∀ d ∈ p.children, j < d ∧ d < s.nextId + 1 := fun d hd =>
        ⟨(h.between j p hp d hd).1, Nat.lt_succ_of_lt (h.between j p hp d hd).2⟩
      rcases hq with rfl | ⟨-, rfl⟩
      · exact hold c hc
      · rcases Process.mem_children_addChild.1 hc with hc | rfl
        · exact hold c hc
        · exact ⟨(h.named j p hp).2, Nat.lt_succ_self _⟩
  · intro j q hq
    rcases process?_entered_eq_some hq with ⟨rfl, rfl⟩ | ⟨-, p, hp, hq⟩
    · exact List.nodup_nil
    · rcases hq with rfl | ⟨-, rfl⟩
      · exact h.nodup j q hp
      · exact Process.nodup_children_addChild (h.nodup j p hp) _
  · intro i p j q hp hq hne c hc hc'
    -- The new process is a child of no one else, for the children of others stand below it.
    have hnew : ∀ k r, s.process? k = some r → s.nextId ∉ r.children := fun k r hr hmem =>
      Nat.lt_irrefl _ (h.between k r hr _ hmem).2
    rcases process?_entered_eq_some hp with ⟨rfl, rfl⟩ | ⟨-, p', hp', hp⟩
    · contradiction
    · rcases process?_entered_eq_some hq with ⟨rfl, rfl⟩ | ⟨-, q', hq', hq⟩
      · contradiction
      · have hold := h.apart i p' j q' hp' hq' hne
        rcases hp with rfl | ⟨hi, rfl⟩ <;> rcases hq with rfl | ⟨hj, rfl⟩
        · exact hold hc hc'
        · rcases Process.mem_children_addChild.1 hc' with hc' | rfl
          · exact hold hc hc'
          · exact hnew i p hp' hc
        · rcases Process.mem_children_addChild.1 hc with hc | rfl
          · exact hold hc hc'
          · exact hnew j q hq' hc'
        · exact hne (Option.some.inj (hi.symm.trans hj))

theorem Recorded.entered (h : s.Recorded ∅) (parent : Option Nat) (context : Context) :
    (s.entered parent context).Recorded ∅ := by
  refine ⟨?_, ?_, ?_, ?_⟩
  · intro j hj
    by_cases hnew : j = s.nextId
    · exact ⟨_, (process?_entered s parent context j).trans (if_pos hnew), rfl⟩
    · obtain ⟨p, hp, hhalted⟩ := h.alive j ((isRegistered_entered.1 hj).resolve_left hnew)
      obtain ⟨q, hq, rfl | ⟨-, rfl⟩⟩ := exists_process?_entered hp hnew parent context
      · exact ⟨_, hq, hhalted⟩
      · exact ⟨_, hq, (Process.halted_addChild p _).trans hhalted⟩
  · intro j q hq hhalted
    rcases process?_entered_eq_some hq with ⟨rfl, rfl⟩ | ⟨-, p, hp, hq⟩
    · exact .inl (isRegistered_entered.2 (.inl rfl))
    · have hp' : p.halted = false := by
        rcases hq with rfl | ⟨-, rfl⟩
        · exact hhalted
        · rwa [Process.halted_addChild] at hhalted
      exact (h.registered j p hp hp').imp_left fun hj => isRegistered_entered.2 (.inr hj)
  · exact fun j hj => absurd hj (Set.notMem_empty j)
  · intro j q hq hhalted
    rcases process?_entered_eq_some hq with ⟨rfl, rfl⟩ | ⟨-, p, hp, hq⟩
    · contradiction
    · rcases hq with rfl | ⟨-, rfl⟩
      · exact h.bare j q hp hhalted
      · rw [Process.halted_addChild] at hhalted
        exact (h.bare j p hp hhalted).addChild _

theorem Related.follows_entered (h : s.Related) (parent : Option Nat) (context : Context) :
    s.Follows (s.entered parent context) where
  counter := by
    rw [nextId_entered]
    exact Nat.le_succ _
  kept j p hp := by
    -- The new identity was not on record, so no record is replaced.
    have hne : j ≠ s.nextId := by
      rintro rfl
      rw [h.process?_nextId] at hp
      contradiction
    obtain ⟨q, hq, rfl | ⟨-, rfl⟩⟩ := exists_process?_entered hp hne parent context
    · exact ⟨_, hq, fun h => h, List.prefix_refl _⟩
    · refine ⟨_, hq, ?_, Process.prefix_children_addChild p _⟩
      rw [Process.halted_addChild]
      exact fun h => h
  fresh j hnone hsome := by
    exact ((process?_entered_ne_none_iff.1 hsome).resolve_right (not_not_intro hnone)).ge

theorem Orderly.entered (h : s.Orderly ∅) (parent : Option Nat) (context : Context) :
    (s.entered parent context).Orderly ∅ ∧ s.Follows (s.entered parent context) := by
  refine ⟨⟨⟨?_, ?_⟩, h.recorded.entered parent context, h.related.entered parent context⟩,
    h.related.follows_entered parent context⟩
  · intro j hj
    rw [owned_entered] at hj
    exact isRegistered_entered.2 (.inr (h.staffed.registered j hj))
  · rw [owned_entered]
    exact h.staffed.nodup

/-- An identity that is handed out for nothing is still used up. -/
theorem Orderly.counted (h : s.Orderly ending) :
    s.counted.Orderly ending ∧ s.Follows s.counted :=
  ⟨h.congr rfl rfl rfl (Nat.le_succ _), follows_of_eq rfl (Nat.le_succ _)⟩

end System

end BytecodeKernel
