import BytecodeKernel.Proofs.Memory.Partition
/-!
Putting two ranges of the arena one behind the other. It succeeds when the destination and both
sources lie in the arena, and then nothing but the destination has changed. The destination and the
first source are looked at before anything is written, the second source only after the first copy
was made. So a call that is refused for the second source alone has written half of the destination.
-/

namespace BytecodeKernel

/-- The bytes of two ranges that lie one behind the other. -/
theorem ByteStore.read_add (s : ByteStore) (addr m n : Nat) :
    s.read addr (m + n) = s.read addr m ++ s.read (addr + m) n := by
  rw [read, read, read, ← List.map_append, List.range'_append_1]

theorem ByteStore.read_eq_iff {s t : ByteStore} {addr count : Nat} :
    s.read addr count = t.read addr count ↔
      ∀ x, addr ≤ x → x < addr + count → s.get x = t.get x := by
  simp only [read, List.map_inj_left, List.mem_range'_1, and_imp]

namespace Arena

variable {a after : Arena} {dst src srcA srcB length : Nat}

/-- The arena with the bytes of one range in another place as well. -/
def copied (a : Arena) (dst src length : Nat) : Arena :=
  { a with store := a.store.write dst (a.store.read src length) }

theorem copy_of_inRange (hsrc : a.InRange src length) (hdst : a.InRange dst length) :
    a.copy dst src length = .ok (a.copied dst src length) := by
  rw [copy, read, if_pos hsrc]
  exact if_pos hdst

theorem copy_of_not_inRange (hsrc : ¬ a.InRange src length) :
    a.copy dst src length = .error (.outOfBounds src length) := by
  rw [copy, read, if_neg hsrc]
  rfl

theorem get_copied_of_outside {x : Nat} (hx : x < dst ∨ dst + length ≤ x) :
    (a.copied dst src length).store.get x = a.store.get x := by
  rw [copied, ByteStore.get_write, ByteStore.length_read, if_neg (by omega)]

theorem read_copied (a : Arena) (dst src length : Nat) :
    (a.copied dst src length).store.read dst length = a.store.read src length := by
  have hread := ByteStore.read_write a.store dst (a.store.read src length)
  rwa [ByteStore.length_read] at hread

/-- A range that the copy does not meet. -/
theorem read_copied_of_disjoint {start count : Nat}
    (h : start + count ≤ dst ∨ dst + length ≤ start) :
    (a.copied dst src length).store.read start count = a.store.read start count :=
  ByteStore.read_write_of_disjoint _ (by rwa [ByteStore.length_read])

/-! ### The three ends of a call -/

/-- Twice the length, cut down to what 32 bits hold, is still too long for every arena. -/
theorem Sound.inRange_both_iff (h : a.Sound) :
    a.InRange dst (min (2 * length) (addressLimit - 1)) ↔ a.InRange dst (2 * length) := by
  have hcapacity := h.capacity_le.trans h.limit_le
  simp only [InRange, maxCapacity, addressLimit] at hcapacity ⊢
  omega

/-- Where the whole destination lies in the arena, the start of its second half has an address. -/
theorem Sound.add_lt (h : a.Sound) (hdst : a.InRange dst (2 * length)) :
    dst + length < addressLimit := by
  have hcapacity := h.capacity_le.trans h.limit_le
  have hend := hdst.2
  simp only [maxCapacity, addressLimit] at hcapacity ⊢
  omega

/-- Refused before anything is written. -/
theorem Sound.concatCopy_of_not_begun (h : a.Sound) (srcB : Nat)
    (hnot : ¬ (a.InRange dst (2 * length) ∧ a.InRange srcA length)) :
    ∃ e, a.concatCopy dst srcA srcB length = (.error e, a) := by
  simp only [concatCopy, h.inRange_both_iff]
  split
  · exact ⟨_, rfl⟩
  · split
    · exact ⟨_, rfl⟩
    · rename_i hdst
      rw [copy_of_not_inRange fun hsrc => hnot ⟨not_not.1 hdst, hsrc⟩]
      exact ⟨_, rfl⟩

/-- Once the destination and the first source are found in order, the first copy is made. -/
theorem Sound.concatCopy_of_begun (h : a.Sound) (srcB : Nat) (hdst : a.InRange dst (2 * length))
    (hsrcA : a.InRange srcA length) :
    a.concatCopy dst srcA srcB length =
      if a.InRange srcB length then
        (.ok (), (a.copied dst srcA length).copied (dst + length) srcB length)
      else (.error (.outOfBounds srcB length), a.copied dst srcA length) := by
  have hfirst := copy_of_inRange hsrcA (hdst.shorter (show length ≤ 2 * length by omega))
  have hbehind : (a.copied dst srcA length).InRange (dst + length) length :=
    ⟨by have := hdst.1; omega, by have := hdst.2; show _ ≤ a.capacity + 1; omega⟩
  simp only [concatCopy, h.inRange_both_iff, Nat.not_le.2 (h.add_lt hdst), if_false, hdst,
    not_true_eq_false, hfirst]
  by_cases hsrcB : a.InRange srcB length
  · have hsecond : (a.copied dst srcA length).copy (dst + length) srcB length =
        .ok ((a.copied dst srcA length).copied (dst + length) srcB length) :=
      copy_of_inRange hsrcB hbehind
    rw [hsecond, if_pos hsrcB]
  · have hsecond : (a.copied dst srcA length).copy (dst + length) srcB length =
        .error (.outOfBounds srcB length) :=
      copy_of_not_inRange hsrcB
    rw [hsecond, if_neg hsrcB]

/-! ### What a call does -/

/-- When two ranges can be put one behind the other, what that does, and what a refusal leaves. -/
structure Concatenations (a : Arena) : Prop where
  ok_iff : ∀ dst srcA srcB length,
    (∃ after, a.concatCopy dst srcA srcB length = (.ok (), after)) ↔
      a.InRange dst (2 * length) ∧ a.InRange srcA length ∧ a.InRange srcB length
  /-- The second source does not meet the first half of the destination. -/
  joined : ∀ dst srcA srcB length after, a.concatCopy dst srcA srcB length = (.ok (), after) →
    srcB + length ≤ dst ∨ dst + length ≤ srcB →
      after.store.read dst (2 * length) = a.store.read srcA length ++ a.store.read srcB length
  /-- However a call ends, no byte outside of the destination has changed, and no table. -/
  framed : ∀ dst srcA srcB length,
    SameTables a (a.concatCopy dst srcA srcB length).2 ∧
      ∀ x, x < dst ∨ dst + 2 * length ≤ x →
        (a.concatCopy dst srcA srcB length).2.store.get x = a.store.get x
  /-- Refused for the destination or the first source, and nothing has happened. -/
  unchanged : ∀ dst srcA srcB length e after,
    a.concatCopy dst srcA srcB length = (.error e, after) →
      ¬ (a.InRange dst (2 * length) ∧ a.InRange srcA length) → after = a
  /-- Refused for the second source, and the first half is written. -/
  halfway : ∀ dst srcA srcB length e after,
    a.concatCopy dst srcA srcB length = (.error e, after) →
      a.InRange dst (2 * length) → a.InRange srcA length →
        ¬ a.InRange srcB length ∧ e = .outOfBounds srcB length ∧
          after.store.read dst length = a.store.read srcA length ∧
          ∀ x, x < dst ∨ dst + length ≤ x → after.store.get x = a.store.get x
  /-- So a call that is refused changes bytes just where the first half was another before. -/
  changed_iff : ∀ dst srcA srcB length e after,
    a.concatCopy dst srcA srcB length = (.error e, after) →
      ((∃ x, after.store.get x ≠ a.store.get x) ↔
        a.InRange dst (2 * length) ∧ a.InRange srcA length ∧
          a.store.read dst length ≠ a.store.read srcA length)

/-- The three ends that a call can come to. -/
theorem Sound.concatCopy_cases (h : a.Sound) (dst srcA srcB length : Nat) :
    (∃ e, a.concatCopy dst srcA srcB length = (.error e, a)) ∧
        ¬ (a.InRange dst (2 * length) ∧ a.InRange srcA length) ∨
      (a.concatCopy dst srcA srcB length =
          (.error (.outOfBounds srcB length), a.copied dst srcA length)) ∧
        (a.InRange dst (2 * length) ∧ a.InRange srcA length) ∧ ¬ a.InRange srcB length ∨
      (a.concatCopy dst srcA srcB length =
          (.ok (), (a.copied dst srcA length).copied (dst + length) srcB length)) ∧
        (a.InRange dst (2 * length) ∧ a.InRange srcA length) ∧ a.InRange srcB length := by
  by_cases hbegun : a.InRange dst (2 * length) ∧ a.InRange srcA length
  · have heq := h.concatCopy_of_begun srcB hbegun.1 hbegun.2
    by_cases hsrcB : a.InRange srcB length
    · rw [if_pos hsrcB] at heq
      exact .inr (.inr ⟨heq, hbegun, hsrcB⟩)
    · rw [if_neg hsrcB] at heq
      exact .inr (.inl ⟨heq, hbegun, hsrcB⟩)
  · exact .inl ⟨h.concatCopy_of_not_begun srcB hbegun, hbegun⟩

theorem Sound.concatCopy_eq_ok (h : a.Sound)
    (hok : a.concatCopy dst srcA srcB length = (.ok (), after)) :
    (a.InRange dst (2 * length) ∧ a.InRange srcA length ∧ a.InRange srcB length) ∧
      after = (a.copied dst srcA length).copied (dst + length) srcB length := by
  rcases h.concatCopy_cases dst srcA srcB length with
    ⟨⟨e, heq⟩, -⟩ | ⟨heq, -⟩ | ⟨heq, ⟨hdst, hsrcA⟩, hsrcB⟩ <;> cases heq.symm.trans hok
  exact ⟨⟨hdst, hsrcA, hsrcB⟩, rfl⟩

theorem Sound.concatCopy_eq_error (h : a.Sound) {e : MemoryError}
    (herror : a.concatCopy dst srcA srcB length = (.error e, after)) :
    ¬ (a.InRange dst (2 * length) ∧ a.InRange srcA length) ∧ after = a ∨
      (a.InRange dst (2 * length) ∧ a.InRange srcA length) ∧ ¬ a.InRange srcB length ∧
        e = .outOfBounds srcB length ∧ after = a.copied dst srcA length := by
  rcases h.concatCopy_cases dst srcA srcB length with
    ⟨⟨e, heq⟩, hnot⟩ | ⟨heq, hbegun, hsrcB⟩ | ⟨heq, -⟩ <;> cases heq.symm.trans herror
  · exact .inl ⟨hnot, rfl⟩
  · exact .inr ⟨hbegun, hsrcB, rfl, rfl⟩

/-- The second source is read after the first copy, which it does not meet. -/
theorem read_joined (h : srcB + length ≤ dst ∨ dst + length ≤ srcB) :
    ((a.copied dst srcA length).copied (dst + length) srcB length).store.read dst (2 * length) =
      a.store.read srcA length ++ a.store.read srcB length := by
  rw [Nat.two_mul, ByteStore.read_add, read_copied, read_copied_of_disjoint (.inl (Nat.le_refl _)),
    read_copied, read_copied_of_disjoint h]

/-- A first half that was the same before is the same afterwards. -/
theorem get_copied_iff :
    (∃ x, (a.copied dst src length).store.get x ≠ a.store.get x) ↔
      a.store.read dst length ≠ a.store.read src length := by
  rw [← not_iff_not, not_exists, not_not, ← read_copied a dst src length, ByteStore.read_eq_iff]
  constructor
  · intro hsame x _ _
    exact (not_not.1 (hsame x)).symm
  · intro hsame x
    by_cases hin : dst ≤ x ∧ x < dst + length
    · exact not_not.2 (hsame x hin.1 hin.2).symm
    · exact not_not.2 (get_copied_of_outside (by omega))

/-- From every state that an arena can reach, a concatenation does this. -/
theorem concatenations_performAll (capacity limit : Nat) (calls : List Call) :
    ((withLimit capacity limit).performAll calls).Concatenations := by
  have h := (grown_performAll (sound_withLimit capacity limit) calls).sound
  exact {
    ok_iff := fun dst srcA srcB length =>
      ⟨fun ⟨_, hok⟩ => (h.concatCopy_eq_ok hok).1,
        fun ⟨hdst, hsrcA, hsrcB⟩ =>
          ⟨_, (h.concatCopy_of_begun srcB hdst hsrcA).trans (if_pos hsrcB)⟩⟩
    joined := fun dst srcA srcB length after hok hapart => by
      obtain ⟨-, rfl⟩ := h.concatCopy_eq_ok hok
      exact read_joined hapart
    framed := fun dst srcA srcB length => by
      refine ⟨sameTables_concatCopy _ _ _ _ _, fun x hx => ?_⟩
      rcases h.concatCopy_cases dst srcA srcB length with
        ⟨⟨e, heq⟩, -⟩ | ⟨heq, -⟩ | ⟨heq, -⟩ <;> rw [heq]
      · exact get_copied_of_outside (by omega)
      · rw [get_copied_of_outside (by omega), get_copied_of_outside (by omega)]
    unchanged := fun dst srcA srcB length e after herror hnot => by
      obtain ⟨-, hsame⟩ | ⟨hbegun, -⟩ := h.concatCopy_eq_error herror
      · exact hsame
      · exact absurd hbegun hnot
    halfway := fun dst srcA srcB length e after herror hdst hsrcA => by
      obtain ⟨hnot, -⟩ | ⟨-, hsrcB, he, rfl⟩ := h.concatCopy_eq_error herror
      · exact absurd ⟨hdst, hsrcA⟩ hnot
      · exact ⟨hsrcB, he, read_copied _ _ _ _, fun x hx => get_copied_of_outside hx⟩
    changed_iff := fun dst srcA srcB length e after herror => by
      obtain ⟨hnot, rfl⟩ | ⟨hbegun, -, -, rfl⟩ := h.concatCopy_eq_error herror
      · simp only [ne_eq, not_true_eq_false, exists_false, false_iff]
        exact fun hall => hnot ⟨hall.1, hall.2.1⟩
      · rw [get_copied_iff]
        exact ⟨fun hne => ⟨hbegun.1, hbegun.2, hne⟩, fun hall => hall.2.2⟩ }

/-- A second source behind the end is refused after the byte of the first one was written. -/
theorem concatCopy_refused_halfway :
    ¬ ∀ (capacity limit : Nat) (calls : List Call) (dst srcA srcB length : Nat) (e : MemoryError)
        (after : Arena),
      let a := (withLimit capacity limit).performAll calls
      a.concatCopy dst srcA srcB length = (.error e, after) →
        ∀ x, after.store.get x = a.store.get x := by
  intro h
  have hsame := h 8 8 [.write 1 [7]] 2 1 9 1 _ _ rfl 2
  exact absurd hsame (by decide)

end Arena

end BytecodeKernel
