import BytecodeKernel.Schedule.Rank
import Mathlib.Data.List.Nodup
/-!
When the starvation override is honoured. A starved process goes first against each other one taken
alone, but the order is found by scans, and in a scan a third process may take the lead from the
starved one and then lose it to the very process the starved one would have beaten. Such a triple is
a cycle of the relation. Without one the relation is transitive on the list and every scan finds the
one that precedes all others; with one, some arrangement of the list serves the starved process too
late.
-/

namespace BytecodeKernel.Rank

/-- In this order no process is served before one that lies more than the gap behind it. -/
def StarvedFirst (order : List Rank) : Prop :=
  ∀ p ∈ order, ∀ q ∈ order, p.cycle + starvationGap < q.cycle → [p, q].Sublist order

instance (order : List Rank) : Decidable (StarvedFirst order) :=
  inferInstanceAs (Decidable (∀ p ∈ order, ∀ q ∈ order, _ → _))

/-- `r` takes the lead from the starved `p`, and `q` takes it from `r`. -/
def Overtakes (q r p : Rank) : Prop :=
  p.cycle + starvationGap < q.cycle ∧ r.Precedes p ∧ q.Precedes r

instance (q r p : Rank) : Decidable (q.Overtakes r p) :=
  inferInstanceAs (Decidable (_ ∧ _))

/-- No starved process of the list can be overtaken. -/
def NoneOvertaken (ranks : List Rank) : Prop :=
  ∀ p ∈ ranks, ∀ q ∈ ranks, ∀ r ∈ ranks, ¬ q.Overtakes r p

instance (ranks : List Rank) : Decidable (NoneOvertaken ranks) :=
  inferInstanceAs (Decidable (∀ p ∈ ranks, ∀ q ∈ ranks, ∀ r ∈ ranks, _))

theorem ne_of_precedes {p q : Rank} (h : p.Precedes q) : p ≠ q := by
  rintro rfl
  exact not_precedes_self p h

theorem precedes_of_starved {p q : Rank} (h : p.cycle + starvationGap < q.cycle) :
    p.Precedes q :=
  .inl h

/-! ### Without overtaking the relation is transitive -/

theorem NoneOvertaken.of_subset {ranks others : List Rank} (h : NoneOvertaken ranks)
    (hsub : others ⊆ ranks) : NoneOvertaken others :=
  fun p hp q hq r hr => h p (hsub hp) q (hsub hq) r (hsub hr)

/-- A cycle of three has a starved process in it, because weights alone have no cycles. -/
theorem overtakes_of_cycle {a b c : Rank} (hab : a.Precedes b) (hbc : b.Precedes c)
    (hca : c.Precedes a) : b.Overtakes c a ∨ c.Overtakes a b ∨ a.Overtakes b c := by
  simp only [Overtakes, Precedes] at *
  omega

theorem NoneOvertaken.trans {ranks : List Rank} (h : NoneOvertaken ranks)
    (hids : (ranks.map Rank.id).Nodup) {a b c : Rank} (ha : a ∈ ranks) (hb : b ∈ ranks)
    (hc : c ∈ ranks) (hab : a.Precedes b) (hbc : b.Precedes c) : a.Precedes c := by
  have hne : a ≠ c := by
    rintro rfl
    exact hab.asymm hbc
  have hid : a.id ≠ c.id := fun heq => hne (List.inj_on_of_nodup_map hids ha hc heq)
  rcases precedes_or_precedes hid with hac | hca
  · exact hac
  · rcases overtakes_of_cycle hab hbc hca with hcycle | hcycle | hcycle
    · exact absurd hcycle (h a ha b hb c hc)
    · exact absurd hcycle (h b hb c hc a ha)
    · exact absurd hcycle (h c hc a ha b hb)

/-- The winner of a scan precedes all that the scan leaves, if the relation is transitive on them.
The lead `best` is known to precede what was passed so far. -/
theorem precedes_of_mem_select {ranks : List Rank} (h : NoneOvertaken ranks)
    (hids : (ranks.map Rank.id).Nodup) (before : List Rank) (best : Rank)
    (between rest : List Rank) (hperm : (before ++ best :: between ++ rest).Perm ranks)
    (hlead : ∀ r ∈ before ++ between, best.Precedes r) :
    ∀ r ∈ (select before best between rest).2, (select before best between rest).1.Precedes r := by
  induction rest generalizing before best between with
  | nil => simpa [select] using hlead
  | cons r rest ih =>
    have hmem (x : Rank) (hx : x ∈ before ++ best :: between ++ r :: rest) : x ∈ ranks :=
      hperm.subset hx
    have hbest : best ∈ ranks := hmem best (by simp)
    have hr : r ∈ ranks := hmem r (by simp)
    simp only [select]
    split
    · -- The new lead beats the old one, and by transitivity all that the old one had beaten.
      rename_i hwins
      refine ih _ r [] (by simpa using hperm) fun x hx => ?_
      have hx' : x = best ∨ x ∈ before ++ between := by
        simp only [List.append_nil, List.mem_append, List.mem_cons] at hx ⊢
        tauto
      rcases hx' with rfl | hx'
      · exact hwins
      · have hxmem : x ∈ ranks := hmem x (by
          simp only [List.mem_append, List.mem_cons] at hx' ⊢
          tauto)
        exact h.trans hids hr hbest hxmem hwins (hlead x hx')
    · rename_i hloses
      refine ih before best (between ++ [r]) (by simpa using hperm) fun x hx => ?_
      have hx' : x = r ∨ x ∈ before ++ between := by
        simp only [List.mem_append, List.mem_cons, List.not_mem_nil, or_false] at hx ⊢
        tauto
      rcases hx' with rfl | hx'
      · have hne : best.id ≠ x.id := by
          have hnodup := (hperm.map Rank.id).nodup_iff.2 hids
          simp only [List.map_append, List.map_cons, List.nodup_append, List.mem_append,
            List.mem_cons] at hnodup
          exact hnodup.2.2 _ (.inr (.inl rfl)) _ (.inl rfl)
        exact (precedes_or_precedes hne).resolve_right hloses
      · exact hlead x hx'

/-- Without overtaking the processes are served in the order of the relation. -/
theorem fairnessOrder_pairwise {ranks : List Rank} (h : NoneOvertaken ranks)
    (hids : (ranks.map Rank.id).Nodup) : (fairnessOrder ranks).Pairwise Precedes := by
  induction hn : ranks.length generalizing ranks with
  | zero => simp [List.length_eq_zero_iff.1 hn, fairnessOrder, winners]
  | succ n ih =>
    obtain ⟨r, rest, rfl⟩ := List.exists_cons_of_length_eq_add_one hn
    have hperm := select_perm [] r [] rest
    simp only [List.nil_append, List.cons_append] at hperm
    have hnodup := (hperm.map Rank.id).nodup_iff.2 hids
    have hothers : (select [] r [] rest).2 ⊆ r :: rest := fun x hx =>
      hperm.subset (List.mem_cons_of_mem _ hx)
    rw [fairnessOrder_cons, List.pairwise_cons]
    constructor
    · intro x hx
      exact precedes_of_mem_select h hids [] r [] rest (by simp) (by simp) x
        ((fairnessOrder_perm _).subset hx)
    · apply ih (h.of_subset hothers) (List.nodup_cons.1 hnodup).2
      simpa [length_select] using hn

/-- Whoever precedes another in an order that follows the relation is served before it. -/
theorem sublist_of_pairwise {order : List Rank} (h : order.Pairwise Precedes) {p q : Rank}
    (hp : p ∈ order) (hq : q ∈ order) (hpq : p.Precedes q) : [p, q].Sublist order := by
  obtain ⟨front, back, rfl⟩ := List.append_of_mem hp
  obtain ⟨-, hback, hcross⟩ := List.pairwise_append.1 h
  simp only [List.mem_append, List.mem_cons] at hq
  rcases hq with hq | rfl | hq
  · exact absurd hpq (hcross q hq p (by simp)).asymm
  · exact absurd hpq (not_precedes_self q)
  · exact (List.cons_sublist_cons.2 (List.singleton_sublist.2 hq)).trans
      (List.sublist_append_right _ _)

/-! ### With overtaking a starved process may come late -/

theorem not_sublist_swap {order : List Rank} (h : order.Nodup) {p q : Rank}
    (hpq : [p, q].Sublist order) : ¬ [q, p].Sublist order := by
  intro hqp
  obtain ⟨front, back, rfl, hp, hq⟩ := List.cons_sublist_iff.1 hpq
  obtain ⟨front', back', hsplit, hq', hp'⟩ := List.cons_sublist_iff.1 hqp
  rw [List.singleton_sublist] at hq hp'
  have hdisjoint := List.disjoint_of_nodup_append h
  rcases List.append_eq_append_iff.1 hsplit with ⟨gap, rfl, rfl⟩ | ⟨gap, rfl, rfl⟩
  · exact hdisjoint hp (List.mem_append_right _ hp')
  · exact hdisjoint (List.mem_append_left _ hq') hq

/-- A scan either keeps its lead or leaves it behind all that stood before it. -/
theorem select_keeps_or_leaves (before : List Rank) (best : Rank) (between rest : List Rank) :
    (select before best between rest =
        (best, before ++ between ++ rest)) ∨
      ∃ behind, (select before best between rest).2 = before ++ best :: behind := by
  induction rest generalizing before best between with
  | nil => exact .inl (by simp [select])
  | cons r rest ih =>
    simp only [select]
    split
    · right
      rcases ih (before ++ best :: between) r [] with hkeeps | ⟨behind, hleaves⟩
      · exact ⟨between ++ rest, by simp [hkeeps]⟩
      · exact ⟨between ++ r :: behind, by simp [hleaves]⟩
    · rcases ih before best (between ++ [r]) with hkeeps | hleaves
      · exact .inl (by simp [hkeeps])
      · exact .inr hleaves

/-- In front of any others, the three of an overtaking end up with the starved process late: whoever
wins a scan before `q` does stands behind all three. -/
theorem fairnessOrder_of_overtakes {q r p : Rank} (h : q.Overtakes r p) (others : List Rank) :
    [q, p].Sublist (fairnessOrder (p :: r :: q :: others)) := by
  induction hn : others.length using Nat.strongRecOn generalizing others with
  | _ n ih =>
    obtain ⟨-, hrp, hqr⟩ := h
    have hscan : select [] p [] (r :: q :: others) = select [p, r] q [] others := by
      simp [select, hrp, hqr]
    rw [fairnessOrder_cons, hscan]
    rcases select_keeps_or_leaves [p, r] q [] others with hkeeps | ⟨behind, hleaves⟩
    · rw [hkeeps]
      refine List.cons_sublist_cons.2 (List.singleton_sublist.2 ?_)
      exact (fairnessOrder_perm _).mem_iff.2 (by simp)
    · have hlength := length_select [p, r] q [] others
      rw [hleaves] at hlength ⊢
      refine (ih behind.length ?_ behind rfl).cons _
      simp at hlength
      omega

/-- The starved process comes first in every arrangement of a list exactly when none in the list can
be overtaken. -/
theorem starvedFirst_iff_noneOvertaken {ranks : List Rank} (hids : (ranks.map Rank.id).Nodup) :
    (∀ arrangement : List Rank, arrangement.Perm ranks → StarvedFirst (fairnessOrder arrangement)) ↔
      NoneOvertaken ranks := by
  constructor
  · intro hfirst p hp q hq r hr hover
    have hnodup : ranks.Nodup := hids.of_map
    have hqr : q ≠ r := ne_of_precedes hover.2.2
    have hrp : r ≠ p := ne_of_precedes hover.2.1
    have hpq : p ≠ q := ne_of_precedes (precedes_of_starved hover.1)
    have hr' : r ∈ ranks.erase p := (List.mem_erase_of_ne hrp).2 hr
    have hq' : q ∈ (ranks.erase p).erase r :=
      (List.mem_erase_of_ne hqr).2 ((List.mem_erase_of_ne hpq.symm).2 hq)
    -- Put the three in front, in the order in which a scan meets them.
    let others := ((ranks.erase p).erase r).erase q
    have hperm : (p :: r :: q :: others).Perm ranks :=
      ((((List.perm_cons_erase hq').symm.cons r).trans (List.perm_cons_erase hr').symm).cons
        p).trans (List.perm_cons_erase hp).symm
    have horder := fairnessOrder_perm (p :: r :: q :: others)
    have hlate : [q, p].Sublist (fairnessOrder (p :: r :: q :: others)) :=
      fairnessOrder_of_overtakes hover others
    have hearly : [p, q].Sublist (fairnessOrder (p :: r :: q :: others)) :=
      hfirst _ hperm p (horder.mem_iff.2 (by simp)) q (horder.mem_iff.2 (by simp)) hover.1
    exact not_sublist_swap (horder.nodup_iff.2 (hperm.nodup_iff.2 hnodup)) hearly hlate
  · intro hnone arrangement hperm p hp q hq hstarved
    have hids' : (arrangement.map Rank.id).Nodup := (hperm.map Rank.id).nodup_iff.2 hids
    have hpairwise := fairnessOrder_pairwise (hnone.of_subset hperm.subset) hids'
    exact sublist_of_pairwise hpairwise hp hq (precedes_of_starved hstarved)

/-- The lightest process is starved and the heaviest overtakes it, by way of the one in between. -/
theorem starved_process_overtaken :
    ¬ ∀ ranks : List Rank, (ranks.map Rank.id).Nodup → StarvedFirst (fairnessOrder ranks) := by
  intro h
  exact absurd (h [⟨0, 1, 0⟩, ⟨1, 10, 15⟩, ⟨2, 20, 30⟩] (by decide)) (by decide)

/-- Two processes that lie level can be ahead of the starved one as far as they like. -/
theorem starvedFirst_of_level_rivals :
    NoneOvertaken [⟨0, 10, 0⟩, ⟨1, 50, 25⟩, ⟨2, 30, 25⟩] ∧
      StarvedFirst (fairnessOrder [⟨2, 30, 25⟩, ⟨1, 50, 25⟩, ⟨0, 10, 0⟩]) :=
  have hnone : NoneOvertaken [⟨0, 10, 0⟩, ⟨1, 50, 25⟩, ⟨2, 30, 25⟩] := by decide
  ⟨hnone, (starvedFirst_iff_noneOvertaken (by decide)).2 hnone _ (by decide)⟩

end BytecodeKernel.Rank
