import BytecodeKernel.Program.Listing
/-!
Disassembly: an image read from its first byte on, one instruction after the other. What was built
from a listing reads as the instructions of that listing, each where it was laid out, and with the
offset of the instruction behind a label wherever that label was the target.
-/

namespace BytecodeKernel

/-! ### Bytes at an offset -/

/-- The bytes stand in the program from the offset on. -/
def Stands (program : List UInt8) (offset : Nat) (bytes : List UInt8) : Prop :=
  ∃ front back, program = front ++ bytes ++ back ∧ front.length = offset

namespace Stands

variable {program xs ys : List UInt8} {offset : Nat}

theorem end_le (h : Stands program offset xs) : offset + xs.length ≤ program.length := by
  obtain ⟨front, back, rfl, rfl⟩ := h
  simp

theorem take_drop (h : Stands program offset xs) : (program.drop offset).take xs.length = xs := by
  obtain ⟨front, back, rfl, rfl⟩ := h
  simp

theorem word? (h : Stands program offset xs) :
    BigEndian.word? program offset xs.length = some xs := by
  rw [BigEndian.word?, if_pos h.end_le, h.take_drop]

theorem left (h : Stands program offset (xs ++ ys)) : Stands program offset xs := by
  obtain ⟨front, back, rfl, hlength⟩ := h
  exact ⟨front, ys ++ back, by simp, hlength⟩

theorem right (h : Stands program offset (xs ++ ys)) : Stands program (offset + xs.length) ys := by
  obtain ⟨front, back, rfl, rfl⟩ := h
  exact ⟨front ++ xs, back, by simp, by simp⟩

theorem tail {b : UInt8} (h : Stands program offset (b :: xs)) :
    Stands program (offset + 1) xs := by
  rw [← List.singleton_append] at h
  exact h.right

theorem head {b : UInt8} (h : Stands program offset (b :: xs)) : program[offset]? = some b := by
  obtain ⟨front, back, rfl, rfl⟩ := h
  simp

end Stands

/-! ### Reading -/

/-- The number of bytes behind the operands of fixed width, as the last of these says. -/
def Opcode.tailLength (o : Opcode) (fixed : List UInt8) : Nat :=
  match o with
  | .spawn => BigEndian.decode (fixed.drop 4)
  | .pushText => BigEndian.decode fixed
  | _ => 0

namespace Instruction

/-- The instruction with these operands of fixed width, and these bytes behind them. -/
def ofParts (o : Opcode) (fixed tail : List UInt8) : Instruction :=
  match o with
  | .push => .push (Int32.ofInt (BigEndian.decodeSigned fixed))
  | .pushLong => .pushLong (Int64.ofInt (BigEndian.decodeSigned fixed))
  | .spawn => .spawn (Int32.ofInt (BigEndian.decodeSigned (fixed.take 4))) tail
  | .bindAt => .bindAt (.offset (UInt32.ofNat (BigEndian.decode fixed)))
  | .jump => .jump (.offset (UInt32.ofNat (BigEndian.decode fixed)))
  | .pushText => .pushText tail
  | o => .plain o

/-- The instruction at an offset, and the offset behind it. -/
def read? (program : List UInt8) (offset : Nat) : Option (Instruction × Nat) := do
  let o ← Opcode.ofByte? (← program[offset]?)
  let fixed ← BigEndian.word? program (offset + 1) o.operandBytes
  let tail ← BigEndian.word? program (offset + 1 + o.operandBytes) (o.tailLength fixed)
  return (ofParts o fixed tail, offset + 1 + o.operandBytes + o.tailLength fixed)

theorem lt_of_read? {program : List UInt8} {offset next : Nat} {i : Instruction}
    (h : read? program offset = some (i, next)) : offset < program.length ∧ offset < next := by
  simp only [read?, Option.bind_eq_bind, Option.bind_eq_some_iff, Option.pure_def,
    Option.some.injEq, Prod.mk.injEq] at h
  obtain ⟨byte, hbyte, o, -, fixed, -, tail, -, -, rfl⟩ := h
  obtain ⟨hlt, -⟩ := List.getElem?_eq_some_iff.1 hbyte
  exact ⟨hlt, by omega⟩

end Instruction

/-- The instructions from an offset on with their offsets, if the last one ends where the program
does. -/
def disassembleFrom? (program : List UInt8) (offset : Nat) : Option (List (Nat × Instruction)) :=
  if offset = program.length then some []
  else match h : Instruction.read? program offset with
    | none => none
    | some (i, next) =>
      have := Instruction.lt_of_read? h
      (disassembleFrom? program next).map ((offset, i) :: ·)
termination_by program.length - offset

def disassemble? (program : List UInt8) : Option (List (Nat × Instruction)) :=
  disassembleFrom? program 0

theorem disassembleFrom?_end (program : List UInt8) :
    disassembleFrom? program program.length = some [] := by
  rw [disassembleFrom?, if_pos rfl]

theorem disassembleFrom?_cons {program : List UInt8} {offset next : Nat} {i : Instruction}
    (h : Instruction.read? program offset = some (i, next)) :
    disassembleFrom? program offset =
      (disassembleFrom? program next).map ((offset, i) :: ·) := by
  have hlt := (Instruction.lt_of_read? h).1
  rw [disassembleFrom?, if_neg (by omega)]
  split
  · rename_i hnone
    rw [h] at hnone
    contradiction
  · rename_i i' next' hsome
    rw [h, Option.some.injEq, Prod.mk.injEq] at hsome
    obtain ⟨rfl, rfl⟩ := hsome
    rfl

/-! ### What was written -/

/-- The word that a target is written as, given the words of the labels. -/
def Target.word (place : String → UInt32) : Target → UInt32
  | label name => place name
  | offset n => n

namespace Instruction

/-- The instruction with an offset for its target. -/
def resolved (place : String → UInt32) : Instruction → Instruction
  | bindAt target => bindAt (.offset (target.word place))
  | jump target => jump (.offset (target.word place))
  | i => i

def target? : Instruction → Option Target
  | bindAt target | jump target => some target
  | _ => none

/-- An opcode that stands alone takes no operands. -/
def Complete : Instruction → Prop
  | plain o => o.operandBytes = 0
  | _ => True

instance (i : Instruction) : Decidable i.Complete := by
  cases i <;> simp only [Complete] <;> infer_instance

/-- The bytes of an instruction whose target is known, its literal being short enough. -/
def written (place : String → UInt32) (i : Instruction) : List UInt8 :=
  i.opcode.code :: match i with
    | plain _ => []
    | push v => BigEndian.encodeSigned 4 v.toInt
    | pushLong v => BigEndian.encodeSigned 8 v.toInt
    | spawn priority name =>
      BigEndian.encodeSigned 4 priority.toInt ++ BigEndian.encode 2 name.length ++ name
    | bindAt target | jump target => BigEndian.encode 4 (target.word place).toNat
    | pushText text => BigEndian.encode 2 text.length ++ text

/-- The words are the offsets of the labels. -/
def Places (labels : List (String × Nat)) (place : String → UInt32) : Prop :=
  ∀ name n, labels.lookup name = some n → (place name).toNat = n

variable {labels : List (String × Nat)} {place : String → UInt32} {i : Instruction}
  {bytes program : List UInt8} {offset : Nat}

theorem word_of_resolve {target : Target} {n : Nat} (hplaces : Places labels place)
    (h : target.resolve labels = .ok n) : (target.word place).toNat = n := by
  cases target with
  | offset word => exact Except.ok.inj h
  | label name =>
    cases hlookup : labels.lookup name with
    | none => simp [Target.resolve, hlookup] at h
    | some m =>
      simp only [Target.resolve, hlookup, Except.ok.injEq] at h
      exact h ▸ hplaces name m hlookup

theorem literalFields_of_lt {text : List UInt8} (h : text.length < literalLimit) :
    Field.encodeAll (literalFields text) = BigEndian.encode 2 text.length ++ text := by
  simp [literalFields, h, Field.encodeAll, Field.encode]

/-- The length of a literal that is written. -/
theorem length_lt_of_defect? {text : List UInt8} (h : (pushText text).defect? = none) :
    text.length < literalLimit := by
  rw [defect?] at h
  split at h
  · assumption
  · contradiction

theorem eq_written_of_encode (hplaces : Places labels place) (hdefect : i.defect? = none)
    (h : i.encode labels = .ok bytes) : bytes = i.written place := by
  cases i with
  | plain o | push v | pushLong v =>
    simp only [encode, operands, Bind.bind, Except.bind, Pure.pure, Except.pure,
      Except.ok.injEq] at h
    simp [← h, written, Field.encodeAll, Field.encode]
  | spawn priority name =>
    have hliteral := literalFields_of_lt (length_lt_of_defect? hdefect)
    simp only [encode, operands, Bind.bind, Except.bind, Pure.pure, Except.pure,
      Except.ok.injEq, Field.encodeAll_cons, hliteral] at h
    simp [← h, written, Field.encode]
  | pushText text =>
    have hliteral := literalFields_of_lt (length_lt_of_defect? hdefect)
    simp only [encode, operands, Bind.bind, Except.bind, Pure.pure, Except.pure,
      Except.ok.injEq, hliteral] at h
    exact h.symm
  | bindAt target | jump target =>
    cases hresolve : target.resolve labels with
    | error e => simp [encode, operands, hresolve, Bind.bind, Except.bind] at h
    | ok n =>
      simp only [encode, operands, hresolve, Bind.bind, Except.bind, Pure.pure, Except.pure,
        Except.ok.injEq] at h
      simp [← h, written, Field.encodeAll, Field.encode, word_of_resolve hplaces hresolve]

theorem length_written (place : String → UInt32) (hdefect : i.defect? = none) :
    (i.written place).length = i.size := by
  cases i with
  | spawn priority text | pushText text =>
    simp only [written, size, if_pos (length_lt_of_defect? hdefect), List.length_cons,
      List.length_append, BigEndian.length_encodeSigned, BigEndian.length_encode]
    omega
  | _ => simp [written, size]

/-! ### Reading what was written -/

theorem decode_word (word : UInt32) :
    BigEndian.decode (BigEndian.encode 4 word.toNat) = word.toNat :=
  BigEndian.decode_encode word.toNat_lt

theorem decodeSigned_int32 (v : Int32) :
    BigEndian.decodeSigned (BigEndian.encodeSigned 4 v.toInt) = v.toInt := by
  rw [BigEndian.decodeSigned_encodeSigned]
  exact Int32.toInt_bmod v

theorem decodeSigned_int64 (v : Int64) :
    BigEndian.decodeSigned (BigEndian.encodeSigned 8 v.toInt) = v.toInt := by
  rw [BigEndian.decodeSigned_encodeSigned]
  exact Int64.toInt_bmod v

theorem decode_length {text : List UInt8} (h : text.length < literalLimit) :
    BigEndian.decode (BigEndian.encode 2 text.length) = text.length :=
  BigEndian.decode_encode h

/-- The operands of fixed width, and the bytes that these announce. -/
theorem exists_parts (place : String → UInt32) (hcomplete : i.Complete)
    (hdefect : i.defect? = none) :
    ∃ fixed tail, i.written place = i.opcode.code :: (fixed ++ tail) ∧
      fixed.length = i.opcode.operandBytes ∧ tail.length = i.opcode.tailLength fixed ∧
      ofParts i.opcode fixed tail = i.resolved place := by
  cases i with
  | plain o =>
    refine ⟨[], [], rfl, Eq.symm hcomplete, ?_, ?_⟩
    all_goals cases o <;> first | rfl | contradiction
  | push v =>
    refine ⟨_, [], congrArg (_ :: ·) (List.append_nil _).symm, BigEndian.length_encodeSigned _ _,
      rfl, ?_⟩
    simp only [ofParts, opcode, decodeSigned_int32, Int32.ofInt_toInt, resolved]
  | pushLong v =>
    refine ⟨_, [], congrArg (_ :: ·) (List.append_nil _).symm, BigEndian.length_encodeSigned _ _,
      rfl, ?_⟩
    simp only [ofParts, opcode, decodeSigned_int64, Int64.ofInt_toInt, resolved]
  | bindAt target | jump target =>
    refine ⟨_, [], congrArg (_ :: ·) (List.append_nil _).symm, BigEndian.length_encode _ _, rfl, ?_⟩
    simp only [ofParts, opcode, decode_word, UInt32.ofNat_toNat, resolved]
  | spawn priority name =>
    have hlength := decode_length (length_lt_of_defect? hdefect)
    refine ⟨_, name, rfl, ?_, ?_, ?_⟩
    · simp [opcode, Opcode.operandBytes]
    · simp [opcode, Opcode.tailLength, hlength]
    · simp [ofParts, opcode, decodeSigned_int32, resolved]
  | pushText text =>
    have hlength := decode_length (length_lt_of_defect? hdefect)
    exact ⟨_, text, rfl, BigEndian.length_encode _ _, hlength.symm, rfl⟩

theorem read?_of_stands (hcomplete : i.Complete) (hdefect : i.defect? = none)
    (h : Stands program offset (i.written place)) :
    read? program offset = some (i.resolved place, offset + i.size) := by
  obtain ⟨fixed, tail, hwritten, hfixed, htail, hparts⟩ := exists_parts place hcomplete hdefect
  have hsize : i.size = 1 + i.opcode.operandBytes + i.opcode.tailLength fixed := by
    rw [← length_written place hdefect, hwritten, ← hfixed, ← htail]
    simp only [List.length_cons, List.length_append]
    omega
  rw [hwritten] at h
  have hword := h.tail.left.word?
  have hrest := h.tail.right.word?
  rw [hfixed] at hword hrest
  rw [htail] at hrest
  simp only [read?, Option.bind_eq_bind, h.head, Option.bind_some, Opcode.ofByte?_code, hword,
    hrest, hparts, Option.pure_def, Option.some.injEq, Prod.mk.injEq, true_and]
  omega

end Instruction

/-! ### Listings -/

namespace Listing

/-- The instructions of a listing, in order. -/
def instructions : Listing → List Instruction
  | [] => []
  | .label _ :: rest => instructions rest
  | .instruction i :: rest => i :: instructions rest

/-- The instructions with their offsets, when the listing starts at `offset`. -/
def placedFrom (offset : Nat) : Listing → List (Nat × Instruction)
  | [] => []
  | .label _ :: rest => placedFrom offset rest
  | .instruction i :: rest => (offset, i) :: placedFrom (offset + i.size) rest

/-- The instructions with the offsets where they are laid out. -/
def placed (l : Listing) : List (Nat × Instruction) :=
  placedFrom 0 l

variable {l front rest : Listing} {labels : List (String × Nat)} {place : String → UInt32}
  {program : List UInt8} {offset : Nat} {name : String} {seen : List String}

theorem map_snd_placedFrom (l : Listing) (offset : Nat) :
    (l.placedFrom offset).map Prod.snd = l.instructions := by
  induction l generalizing offset with
  | nil => rfl
  | cons item rest ih =>
    cases item with
    | label name => exact ih offset
    | instruction i => exact congrArg (i :: ·) (ih _)

theorem placedFrom_append (front rest : Listing) (offset : Nat) :
    (front ++ rest).placedFrom offset =
      front.placedFrom offset ++ rest.placedFrom (offset + front.size) := by
  induction front generalizing offset with
  | nil => rfl
  | cons item front ih =>
    cases item with
    | label name => simp [placedFrom, ih, size, Item.size]
    | instruction i => simp [placedFrom, ih, size, Item.size, Nat.add_assoc]

theorem labelsFrom_append (front rest : Listing) (offset : Nat) :
    (front ++ rest).labelsFrom offset =
      front.labelsFrom offset ++ rest.labelsFrom (offset + front.size) := by
  induction front generalizing offset with
  | nil => rfl
  | cons item front ih =>
    cases item with
    | label name => simp [labelsFrom, ih, size, Item.size]
    | instruction i => simp [labelsFrom, ih, size, Item.size, Nat.add_assoc]

/-- Labels lie in the image or at its end. -/
theorem le_of_mem_labelsFrom {n : Nat} (h : (name, n) ∈ l.labelsFrom offset) :
    n ≤ offset + l.size := by
  induction l generalizing offset with
  | nil => cases h
  | cons item rest ih =>
    cases item with
    | label other =>
      rcases List.mem_cons.1 h with heq | h
      · cases heq
        exact Nat.le_add_right _ _
      · simpa [size, Item.size] using ih h
    | instruction i => simpa [size, Item.size, Nat.add_assoc] using ih h

theorem defect?_of_defectAfter? (h : l.defectAfter? seen = none) :
    ∀ i ∈ l.instructions, i.defect? = none := by
  induction l generalizing seen with
  | nil => exact fun i hi => absurd hi List.not_mem_nil
  | cons item rest ih =>
    cases item with
    | label name =>
      rw [defectAfter?] at h
      split at h
      · contradiction
      · exact ih h
    | instruction i =>
      rw [defectAfter?, Option.or_eq_none_iff] at h
      exact List.forall_mem_cons.2 ⟨h.1, ih h.2⟩

/-- A label that is defined once is not among those before. -/
theorem lookup_front_eq_none (h : (front ++ .label name :: rest).defectAfter? seen = none)
    (offset : Nat) : name ∉ seen ∧ (front.labelsFrom offset).lookup name = none := by
  induction front generalizing seen offset with
  | nil =>
    rw [List.nil_append, defectAfter?] at h
    split at h
    · contradiction
    · exact ⟨‹_›, rfl⟩
  | cons item front ih =>
    cases item with
    | label other =>
      rw [List.cons_append, defectAfter?] at h
      split at h
      · contradiction
      · obtain ⟨hseen, hlookup⟩ := ih h offset
        rw [List.mem_cons, not_or] at hseen
        refine ⟨hseen.2, ?_⟩
        rw [labelsFrom, List.lookup_cons, beq_false_of_ne hseen.1]
        exact hlookup
    | instruction i =>
      rw [List.cons_append, defectAfter?, Option.or_eq_none_iff] at h
      exact ih h.2 _

/-- The offset of a label is the size of what is laid out before it. -/
theorem lookup_labels (h : (front ++ .label name :: rest).defect? = none) :
    (Listing.labels (front ++ .label name :: rest)).lookup name = some front.size := by
  rw [Listing.labels, labelsFrom_append, List.lookup_append, (lookup_front_eq_none h 0).2]
  simp [labelsFrom]

theorem mem_of_mem_labelsFrom {n : Nat} (h : (name, n) ∈ l.labelsFrom offset) :
    Item.label name ∈ l := by
  induction l generalizing offset with
  | nil => cases h
  | cons item rest ih =>
    cases item with
    | label other =>
      rcases List.mem_cons.1 h with heq | h
      · cases heq
        exact List.mem_cons_self
      · exact List.mem_cons_of_mem _ (ih h)
    | instruction i => exact List.mem_cons_of_mem _ (ih h)

theorem mem_labels_of_lookup {n : Nat} (h : l.labels.lookup name = some n) :
    (name, n) ∈ l.labels := by
  obtain ⟨front, rest, heq, -⟩ := List.lookup_eq_some_iff.1 h
  exact heq ▸ List.mem_append_right _ List.mem_cons_self

theorem build_eq_ok (h : l.build = .ok program) :
    l.defect? = none ∧ l.size < addressLimit ∧
      ∃ parts, l.mapM (Item.encode l.labels) = .ok parts ∧ parts.flatten = program := by
  rw [build] at h
  cases hdefect : l.defect? with
  | some e => simp [hdefect] at h
  | none =>
    simp only [hdefect] at h
    split at h
    · contradiction
    · cases hparts : l.mapM (Item.encode l.labels) with
      | error e => simp [hparts, Bind.bind, Except.bind] at h
      | ok parts =>
        simp only [hparts, Bind.bind, Except.bind, Pure.pure, Except.pure, Except.ok.injEq] at h
        exact ⟨rfl, Nat.not_le.1 ‹_›, parts, rfl, h⟩

/-- The parts of an image stand one behind the other. -/
theorem stands_of_mapM {parts : List (List UInt8)} (hplaces : Instruction.Places labels place)
    (hdefect : ∀ i ∈ l.instructions, i.defect? = none)
    (hparts : l.mapM (Item.encode labels) = .ok parts)
    (hstands : Stands program offset parts.flatten) :
    parts.flatten.length = l.size ∧
      (∀ x ∈ l.placedFrom offset, Stands program x.1 (x.2.written place)) ∧
      ∀ i ∈ l.instructions, ∃ bytes, i.encode labels = .ok bytes := by
  induction l generalizing offset parts with
  | nil =>
    cases hparts
    exact ⟨rfl, fun x hx => absurd hx List.not_mem_nil, fun i hi => absurd hi List.not_mem_nil⟩
  | cons item rest ih =>
    rw [List.mapM_cons] at hparts
    cases hfirst : item.encode labels with
    | error e => simp [hfirst, Bind.bind, Except.bind] at hparts
    | ok bytes =>
    cases hothers : rest.mapM (Item.encode labels) with
    | error e => simp [hfirst, hothers, Bind.bind, Except.bind] at hparts
    | ok others =>
    simp only [hfirst, hothers, Bind.bind, Except.bind, Pure.pure, Except.pure,
      Except.ok.injEq] at hparts
    subst hparts
    cases item with
    | label name =>
      cases hfirst
      obtain ⟨hsize, hrest⟩ := ih hdefect hothers hstands
      exact ⟨hsize.trans (Nat.zero_add _).symm, hrest⟩
    | instruction i =>
      obtain ⟨hi, hrest⟩ := List.forall_mem_cons.1 hdefect
      obtain rfl := Instruction.eq_written_of_encode hplaces hi hfirst
      have hlength := Instruction.length_written place hi
      rw [List.flatten_cons] at hstands ⊢
      have hright := hstands.right
      rw [hlength] at hright
      obtain ⟨hsize, hplaced, hencoded⟩ := ih hrest hothers hright
      refine ⟨?_, List.forall_mem_cons.2 ⟨hstands.left, hplaced⟩,
        List.forall_mem_cons.2 ⟨⟨_, hfirst⟩, hencoded⟩⟩
      rw [List.length_append, hlength, hsize]
      rfl

/-- A program is the image of a listing, with the labels at these words. -/
structure Laid (l : Listing) (program : List UInt8) (place : String → UInt32) : Prop where
  length : program.length = l.size
  stands : ∀ x ∈ l.placed, Stands program x.1 (x.2.written place)
  defect : ∀ i ∈ l.instructions, i.defect? = none
  places : ∀ front name rest, l = front ++ .label name :: rest →
    (place name).toNat = Listing.size front
  targets : ∀ i ∈ l.instructions, ∀ name, i.target? = some (.label name) → .label name ∈ l

theorem exists_laid (h : l.build = .ok program) : ∃ place, l.Laid program place := by
  obtain ⟨hnone, hsize, parts, hparts, rfl⟩ := build_eq_ok h
  let place (name : String) : UInt32 := UInt32.ofNat ((l.labels.lookup name).getD 0)
  have hplaces : Instruction.Places l.labels place := by
    intro name n hlookup
    have hle : n ≤ 0 + l.size := le_of_mem_labelsFrom (mem_labels_of_lookup hlookup)
    have hlt : n < 2 ^ 32 := by
      rw [addressLimit] at hsize
      omega
    simp only [place, hlookup, Option.getD_some]
    exact UInt32.toNat_ofNat_of_lt' hlt
  have hdefect := defect?_of_defectAfter? hnone
  have hwhole : Stands parts.flatten 0 parts.flatten := ⟨[], [], (List.append_nil _).symm, rfl⟩
  obtain ⟨hlength, hstands, hencoded⟩ := stands_of_mapM hplaces hdefect hparts hwhole
  refine ⟨place, hlength, hstands, hdefect, ?_, fun i hi name htarget => ?_⟩
  · rintro front name rest rfl
    exact hplaces name _ (lookup_labels hnone)
  · obtain ⟨bytes, hbytes⟩ := hencoded i hi
    cases hlookup : l.labels.lookup name with
    | some n => exact mem_of_mem_labelsFrom (mem_labels_of_lookup hlookup)
    | none =>
      cases i with
      | bindAt target | jump target =>
        cases htarget
        simp [Instruction.encode, Instruction.operands, Target.resolve, hlookup, Bind.bind,
          Except.bind] at hbytes
      | _ => contradiction

/-- The program reads as its listing, from whatever part on. -/
theorem disassembleFrom?_of_stands (hcomplete : ∀ i ∈ l.instructions, i.Complete)
    (hdefect : ∀ i ∈ l.instructions, i.defect? = none)
    (hstands : ∀ x ∈ l.placedFrom offset, Stands program x.1 (x.2.written place))
    (hend : offset + l.size = program.length) :
    disassembleFrom? program offset =
      some ((l.placedFrom offset).map fun x => (x.1, x.2.resolved place)) := by
  induction l generalizing offset with
  | nil =>
    obtain rfl : offset = program.length := hend
    exact disassembleFrom?_end program
  | cons item rest ih =>
    cases item with
    | label name => exact ih hcomplete hdefect hstands (by simpa [size, Item.size] using hend)
    | instruction i =>
      obtain ⟨hcomplete, hcompletes⟩ := List.forall_mem_cons.1 hcomplete
      obtain ⟨hdefect, hdefects⟩ := List.forall_mem_cons.1 hdefect
      obtain ⟨hfirst, hothers⟩ := List.forall_mem_cons.1 hstands
      have hread := Instruction.read?_of_stands hcomplete hdefect hfirst
      have hrest := ih hcompletes hdefects hothers (by
        rw [← hend, size, Item.size, Nat.add_assoc])
      rw [disassembleFrom?_cons hread, hrest]
      rfl

theorem Laid.disassemble? (h : l.Laid program place)
    (hcomplete : ∀ i ∈ l.instructions, i.Complete) :
    BytecodeKernel.disassemble? program =
      some (l.placed.map fun x => (x.1, x.2.resolved place)) :=
  disassembleFrom?_of_stands hcomplete h.defect h.stands (by rw [h.length, Nat.zero_add])

theorem length_placedFrom (l : Listing) (offset : Nat) :
    (l.placedFrom offset).length = l.instructions.length := by
  rw [← map_snd_placedFrom l offset, List.length_map]

/-- The first offset, or that of the end if nothing is laid out. -/
theorem head?_offsets (l : Listing) (offset : Nat) :
    ((l.placedFrom offset).map Prod.fst ++ [offset + l.size]).head? = some offset := by
  induction l with
  | nil => rfl
  | cons item rest ih =>
    cases item with
    | label name => simpa [placedFrom, size, Item.size] using ih
    | instruction i => rfl

/-- The instruction behind the first part of a listing, or else the end, is at the size of that
part. -/
theorem getElem?_offsets (front rest : Listing) :
    ((placed (front ++ rest)).map Prod.fst ++
      [Listing.size (front ++ rest)])[(instructions front).length]? = some (size front) := by
  have hhead := head?_offsets rest front.size
  rw [placed, placedFrom_append, List.map_append, List.append_assoc, size_append,
    List.getElem?_append_right (by simp [length_placedFrom]), List.length_map,
    length_placedFrom, Nat.sub_self, ← List.head?_eq_getElem?, Nat.zero_add]
  exact hhead

end Listing

end BytecodeKernel
