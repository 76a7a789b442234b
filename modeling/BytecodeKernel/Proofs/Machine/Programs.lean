import BytecodeKernel.Machine.Interpreter
import BytecodeKernel.Proofs.Machine.Contents
import BytecodeKernel.Proofs.Machine.Holdings
/-!
How the interpreter reads its program. With the image in a live block of the arena, the opcode and
the operands that it reads are the bytes of the program at its cursor, or it finds that the program
ends before.
-/

namespace BytecodeKernel

variable {σ : Type}

theorem ByteStore.read_within (s : ByteStore) {base length offset width : Nat}
    (hend : offset + width ≤ length) :
    s.read (base + offset) width = ((s.read base length).drop offset).take width := by
  refine List.ext_getElem (by simp; omega) fun k hk hk' => ?_
  rw [getElem_read, List.getElem_take, List.getElem_drop, getElem_read, Nat.add_assoc]

/-- The image has these bytes. -/
def Image.Holds (image : Image) (program : List UInt8) (a : Arena) : Prop :=
  a.store.read image.base image.length = program

theorem Image.Holds.length {image : Image} {program : List UInt8} {a : Arena}
    (h : image.Holds program a) : program.length = image.length := by
  rw [← h, ByteStore.length_read]

/-- An image that is spared holds the same bytes. -/
theorem Image.Holds.of_spares {image : Image} {program : List UInt8} {a c : Arena}
    {kept : List (Nat × Nat)} (h : image.Holds program a) (hspares : Arena.Spares kept a c)
    (hmem : image.region ∈ kept) : image.Holds program c :=
  (ByteStore.read_congr fun x hle hlt => hspares.bytes _ hmem x hle hlt).trans h

namespace Runner

/-- The program is in the arena, in a block that is live. -/
structure Loaded (r : Runner σ) (program : List UInt8) (m : Machine σ) : Prop where
  lodged : ∃ regions, r.image.region ∈ regions ∧ m.arena.Owns regions
  holds : r.image.Holds program m.arena

namespace Loaded

variable {r : Runner σ} {program : List UInt8} {m : Machine σ} {offset width : Nat}

theorem withCursor (h : r.Loaded program m) (cursor : Nat) : r.Loaded program { m with cursor } :=
  ⟨h.lodged, h.holds⟩

theorem length (h : r.Loaded program m) : program.length = r.image.length :=
  h.holds.length

theorem addressOf? (h : r.Loaded program m) (hlt : offset < program.length) :
    r.image.addressOf? offset = some (r.image.base + offset) := by
  obtain ⟨regions, hmem, howns⟩ := h.lodged
  rw [h.length] at hlt
  rw [Image.addressOf?, if_pos hlt]
  exact howns.add? hmem hlt.le

theorem bytes (h : r.Loaded program m) (hend : offset + width ≤ program.length) :
    m.arena.store.read (r.image.base + offset) width = (program.drop offset).take width := by
  rw [← h.holds]
  exact ByteStore.read_within _ (h.length ▸ hend)

theorem read (h : r.Loaded program m) (hend : offset + width ≤ program.length) :
    m.arena.read (r.image.base + offset) width = .ok ((program.drop offset).take width) := by
  obtain ⟨regions, hmem, howns⟩ := h.lodged
  rw [← h.bytes hend]
  rw [h.length] at hend
  refine howns.read hmem (Nat.le_add_right _ _) ?_
  show r.image.base + offset + width ≤ r.image.base + r.image.length
  omega

theorem locate (h : r.Loaded program m) (o : Opcode) (hwidth : width ≠ 0) :
    r.locate o offset width =
      if program.length < offset + width then throw (.unexpectedEnd o offset)
      else pure (r.image.base + offset) := by
  rw [Runner.locate, ← h.length]
  split
  · rfl
  · rw [h.addressOf? (by omega)]

/-- The bytes at the cursor, as far as there are so many. -/
theorem operand_eq (h : r.Loaded program m) (o : Opcode) (hwidth : width ≠ 0) :
    r.operand o width m =
      if program.length < m.cursor + width then .error (.unexpectedEnd o m.cursor) m
      else .ok ((program.drop m.cursor).take width) { m with cursor := m.cursor + width } := by
  simp only [Runner.operand, Bind.bind, EStateM.bind, Exec.cursor, h.locate o hwidth]
  by_cases hend : program.length < m.cursor + width
  · rw [if_pos hend, if_pos hend]
    rfl
  · rw [if_neg hend, if_neg hend]
    simp only [Pure.pure, EStateM.pure, run_get, h.read (Nat.not_lt.1 hend), Exec.ofMemory,
      Exec.skip]

theorem getByte (h : r.Loaded program m) (hlt : offset < program.length) :
    m.arena.getByte (r.image.base + offset) = .ok program[offset] := by
  have hread := h.read (show offset + 1 ≤ program.length from hlt)
  rw [List.drop_eq_getElem_cons hlt, List.take_succ_cons, List.take_zero] at hread
  simp only [Arena.getByte, hread, Bind.bind, Except.bind, Pure.pure, Except.pure, List.headD_cons]

/-- The instruction at the cursor. -/
theorem step_eq (h : r.Loaded program m) :
    r.step m = match program[m.cursor]? with
      | none => .error (.invalidJump m.cursor program.length) m
      | some byte => match Opcode.ofByte? byte with
        | none => .error (.unknownOpcode byte m.cursor) m
        | some o => (do Exec.skip 1; r.perform o m.cursor) m := by
  simp only [Runner.step, Bind.bind, EStateM.bind, Exec.cursor]
  by_cases hlt : m.cursor < program.length
  · rw [h.addressOf? hlt, List.getElem?_eq_getElem hlt]
    simp only [EStateM.bind, run_get, h.getByte hlt, Exec.ofMemory, Pure.pure, EStateM.pure]
    cases Opcode.ofByte? program[m.cursor] <;> rfl
  · have hnone : r.image.addressOf? m.cursor = none := by
      rw [Image.addressOf?, if_neg (h.length ▸ hlt)]
    rw [hnone, List.getElem?_eq_none (Nat.not_lt.1 hlt), h.length]
    rfl

end Loaded

end Runner

end BytecodeKernel
