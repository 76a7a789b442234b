import BytecodeKernel.Proofs.Assembly.Reading
import BytecodeKernel.Proofs.Memory.Soundness
import BytecodeKernel.Proofs.Program.Disassembly
/-!
Labels as operands. A jump or a binding to a label is to be laid out with the offset of that label.
But its operand is tried as a number first, and since a number may have underscores anywhere, there
are labels that are taken for one: those that begin with an underscore and are numerals without it.
Every other label means the label.
-/

namespace BytecodeKernel

/-! ### Names that read as numbers -/

namespace Numeral

/-- One or more digits of a base. -/
def Digits (base : Nat) (text : List Char) : Prop :=
  text ≠ [] ∧ ∀ c ∈ text, (digit? base c).isSome

/-- Digits in decimal, or in hexadecimal behind their mark. -/
inductive Unsigned : List Char → Prop where
  | decimal {text : List Char} : Digits 10 text → Unsigned text
  | hexadecimal {x : Char} {text : List Char} : x = 'x' ∨ x = 'X' → Digits 16 text →
      Unsigned ('0' :: x :: text)

variable {base : Nat} {text : List Char} {c : Char}

theorem isSome_foldlM_iff (n : Nat) :
    (text.foldlM (fun n c => (digit? base c).map (n * base + ·)) n).isSome ↔
      ∀ c ∈ text, (digit? base c).isSome := by
  induction text generalizing n with
  | nil => simp
  | cons c text ih =>
    rw [List.foldlM_cons, List.forall_mem_cons]
    cases hdigit : digit? base c with
    | none => simp
    | some d => simpa using ih (n * base + d)

theorem isSome_digits?_iff : (digits? base text).isSome ↔ Digits base text := by
  rw [digits?, Digits]
  split
  · rename_i hempty
    simp [List.isEmpty_iff.1 hempty]
  · rename_i hne
    rw [isSome_foldlM_iff]
    exact (and_iff_right fun hnil => hne (List.isEmpty_iff.2 hnil)).symm

theorem isSome_signed?_iff (h : ∀ c ∈ text, c ≠ '-' ∧ c ≠ '+') :
    (signed? base text).isSome ↔ Digits base text := by
  rw [signed?_of_unsigned h, Option.isSome_map, isSome_digits?_iff]

/-- A letter that marks hexadecimal is no decimal digit. -/
theorem not_digits_of_mark {x : Char} (hx : x = 'x' ∨ x = 'X') (front rest : List Char) :
    ¬ Digits 10 (front ++ x :: rest) := by
  rintro ⟨-, h⟩
  have hdigit := h x (List.mem_append_right _ List.mem_cons_self)
  rcases hx with rfl | rfl <;> exact absurd hdigit (by decide)

theorem isSome_magnitude?_iff (h : ∀ c ∈ text, c ≠ '-' ∧ c ≠ '+') :
    (magnitude? text).isSome ↔ Unsigned text := by
  have hmarked {x : Char} {rest : List Char} (hx : x = 'x' ∨ x = 'X')
      (htext : ∀ c ∈ '0' :: x :: rest, c ≠ '-' ∧ c ≠ '+') :
      (signed? 16 rest).isSome ↔ Unsigned ('0' :: x :: rest) := by
    have hrest : ∀ c ∈ rest, c ≠ '-' ∧ c ≠ '+' := fun c hc =>
      htext c (List.mem_cons_of_mem _ (List.mem_cons_of_mem _ hc))
    rw [isSome_signed?_iff hrest]
    refine ⟨.hexadecimal hx, fun hunsigned => ?_⟩
    cases hunsigned with
    | decimal hdigits => exact absurd hdigits (not_digits_of_mark hx ['0'] rest)
    | hexadecimal _ hdigits => exact hdigits
  fun_cases magnitude? text with
  | case1 rest => exact hmarked (.inl rfl) h
  | case2 rest => exact hmarked (.inr rfl) h
  | case3 text hlower hupper =>
    rw [isSome_signed?_iff h]
    refine ⟨.decimal, fun hunsigned => ?_⟩
    cases hunsigned with
    | decimal hdigits => exact hdigits
    | @hexadecimal x rest hx _ =>
      rcases hx with rfl | rfl
      · exact absurd rfl (hlower rest)
      · exact absurd rfl (hupper rest)

theorem nonneg_of_magnitude? (h : ∀ c ∈ text, c ≠ '-' ∧ c ≠ '+') {v : Int}
    (hv : magnitude? text = some v) : 0 ≤ v := by
  have hsigned {base : Nat} {rest : List Char} (hrest : ∀ c ∈ rest, c ≠ '-' ∧ c ≠ '+')
      (hv : signed? base rest = some v) : 0 ≤ v := by
    rw [signed?_of_unsigned hrest] at hv
    obtain ⟨n, -, rfl⟩ := Option.map_eq_some_iff.1 hv
    exact Int.natCast_nonneg n
  revert hv
  fun_cases magnitude? text with
  | case1 rest | case2 rest =>
    exact hsigned fun c hc => h c (List.mem_cons_of_mem _ (List.mem_cons_of_mem _ hc))
  | case3 => exact hsigned h

theorem isDigit_of_isSome_digit? (h : (digit? 10 c).isSome) : c.isDigit = true := by
  obtain ⟨d, hd⟩ := Option.isSome_iff_exists.1 h
  obtain ⟨hvalue, hlt⟩ := Option.filter_eq_some_iff.1 hd
  have hlt : d < 10 := by simpa using hlt
  rw [Hex.value?] at hvalue
  split at hvalue
  · rename_i hrange
    simp only [Char.isDigit, Bool.and_eq_true, decide_eq_true_eq]
    exact hrange
  · split at hvalue
    · cases hvalue
      omega
    · split at hvalue
      · cases hvalue
        omega
      · contradiction

theorem not_isDigit_of_isAlpha (h : c.isAlpha = true) : ¬ c.isDigit = true := by
  intro hdigit
  have hrange := toNat_of_isDigit hdigit
  simp only [Char.isAlpha, Char.isUpper, Char.isLower, Bool.or_eq_true, Bool.and_eq_true,
    decide_eq_true_eq, ge_iff_le, UInt32.le_iff_toNat_le] at h
  change 65 ≤ c.toNat ∧ c.toNat ≤ 90 ∨ 97 ≤ c.toNat ∧ c.toNat ≤ 122 at h
  omega

/-- What is read as a number begins with a digit. -/
theorem Unsigned.isDigit (h : Unsigned (c :: text)) : c.isDigit = true := by
  cases h with
  | decimal hdigits => exact isDigit_of_isSome_digit? (hdigits.2 c List.mem_cons_self)
  | hexadecimal _ _ => rfl

end Numeral

namespace Assembly

variable {name : List Char}

/-- Without its underscores, a label has letters and digits alone. -/
theorem isAlphanum_of_isLabel (h : isLabel name = true) :
    ∀ c ∈ name.filter (· != '_'), c.isAlphanum = true := by
  intro c hc
  obtain ⟨hmem, hne⟩ := List.mem_filter.1 hc
  have hne : c ≠ '_' := by simpa using hne
  cases name with
  | nil => contradiction
  | cons d rest =>
    rw [isLabel, Bool.and_eq_true, List.all_eq_true] at h
    have hchar : isNameStart c = true ∨ c.isDigit = true := by
      rcases List.mem_cons.1 hmem with rfl | hmem
      · exact .inl h.1
      · simpa using h.2 c hmem
    simpa [isNameStart, Char.isAlphanum, hne] using hchar

theorem unsigned_of_isLabel (h : isLabel name = true) :
    ∀ c ∈ name.filter (· != '_'), c ≠ '-' ∧ c ≠ '+' := by
  intro c hc
  have halphanum := isAlphanum_of_isLabel h c hc
  refine ⟨?_, ?_⟩ <;> rintro rfl <;> exact absurd halphanum (by decide)

theorem value?_of_isLabel (h : isLabel name = true) :
    Numeral.value? name = Numeral.magnitude? (name.filter (· != '_')) := by
  rw [Numeral.value?]
  split
  · rename_i rest hrest
    exact absurd rfl (unsigned_of_isLabel h '-' (hrest ▸ List.mem_cons_self)).1
  · rfl

theorem isSome_value?_iff (h : isLabel name = true) :
    (Numeral.value? name).isSome ↔
      name.head? = some '_' ∧ Numeral.Unsigned (name.filter (· != '_')) := by
  rw [value?_of_isLabel h, Numeral.isSome_magnitude?_iff (unsigned_of_isLabel h)]
  refine (and_iff_right_of_imp fun hunsigned => ?_).symm
  -- what begins with a letter is not unsigned
  obtain ⟨c, rest, rfl⟩ := List.exists_cons_of_ne_nil (isWord_of_isLabel h).ne_nil
  rw [isLabel, Bool.and_eq_true, isNameStart, Bool.or_eq_true, beq_iff_eq] at h
  obtain halpha | rfl := h.1
  · have hne : c ≠ '_' := by
      rintro rfl
      exact absurd halpha (by decide)
    rw [List.filter_cons_of_pos (by simpa using hne)] at hunsigned
    exact absurd hunsigned.isDigit (Numeral.not_isDigit_of_isAlpha halpha)
  · rfl

/-- A name with an underscore in front that is a numeral of at most 64 bits without underscores. -/
structure Disguised (name : List Char) : Prop where
  underscore : name.head? = some '_'
  unsigned : Numeral.Unsigned (name.filter (· != '_'))
  small : ∀ v, Numeral.value? name = some v → v < 0x8000000000000000

/-- A label that reads as a number has no sign. -/
theorem exists_nat_of_read? (h : isLabel name = true) {v : Int} (hv : Numeral.read? name = some v) :
    ∃ n : Nat, v = n := by
  have hvalue := (Option.filter_eq_some_iff.1 hv).1
  rw [value?_of_isLabel h] at hvalue
  exact Int.eq_ofNat_of_zero_le (Numeral.nonneg_of_magnitude? (unsigned_of_isLabel h) hvalue)

/-- These labels and no others read as numbers. -/
theorem read?_eq_none_iff (h : isLabel name = true) :
    Numeral.read? name = none ↔ ¬ Disguised name := by
  refine ⟨?_, fun hplain => Option.eq_none_iff_forall_ne_some.2 fun v hv => hplain ?_⟩
  · rintro hnone ⟨hunderscore, hunsigned, hsmall⟩
    obtain ⟨v, hvalue⟩ :=
      Option.isSome_iff_exists.1 ((isSome_value?_iff h).2 ⟨hunderscore, hunsigned⟩)
    have hnonneg : 0 ≤ v :=
      Numeral.nonneg_of_magnitude? (unsigned_of_isLabel h) (value?_of_isLabel h ▸ hvalue)
    have hlow : -0x8000000000000000 ≤ v := by omega
    have hhigh := hsmall v hvalue
    have hread : Numeral.read? name = some v := by simp [Numeral.read?, hvalue, hlow, hhigh]
    rw [hnone] at hread
    contradiction
  · obtain ⟨hvalue, hbounds⟩ := Option.filter_eq_some_iff.1 hv
    obtain ⟨hunderscore, hunsigned⟩ :=
      (isSome_value?_iff h).1 (Option.isSome_iff_exists.2 ⟨v, hvalue⟩)
    refine ⟨hunderscore, hunsigned, fun w hw => ?_⟩
    obtain rfl : v = w := Option.some.inj (hvalue.symm.trans hw)
    exact (of_decide_eq_true hbounds).2

/-! ### Lines with a label for their operand -/

/-- The opcodes that take a target, each with its instructions. -/
inductive Aims : Opcode → (Target → Instruction) → Prop where
  | jump : Aims .jump .jump
  | bindAt : Aims .bindAt .bindAt

/-- The line has this opcode and this text for its operands, behind a label or not. -/
def HasOperand (o : Opcode) (text line : List Char) : Prop :=
  ∃ mnemonic operands, splitAtFirst? isBlank (splitLabel line).2 = some (mnemonic, operands) ∧
    Opcode.ofMnemonic? mnemonic = some o ∧ trimBlanks operands = text

/-- The label in front of a line, if it has one. -/
def heading (line : List Char) : Listing :=
  (splitLabel line).1.toList.map fun name => Item.label (String.ofList name)

/-- What a line reads as that has this instruction. -/
def itemsWith (line : List Char) (i : Instruction) : Listing :=
  heading line ++ [.instruction i]

variable {o : Opcode} {aim : Target → Instruction} {text line : List Char} {number : Nat}

theorem readLine_of_hasOperand (h : HasOperand o text line) :
    readLine number line = (readInstruction number o text).map (itemsWith line) := by
  obtain ⟨mnemonic, operands, hsplit, hopcode, rfl⟩ := h
  have hne : (splitLabel line).2.isEmpty = false := by
    cases htext : (splitLabel line).2 with
    | nil =>
      rw [htext] at hsplit
      contradiction
    | cons c rest => rfl
  simp only [readLine, hne, hsplit, Option.getD_some, hopcode]
  cases readInstruction number o (trimBlanks operands) <;> rfl

theorem readInstruction_of_aims (h : Aims o aim) :
    readInstruction number o text = (targetOperand number o text).map aim := by
  cases h <;> simp only [readInstruction] <;> cases targetOperand number _ text <;> rfl

theorem isEmpty_of_isLabel (h : isLabel name = true) : name.isEmpty = false :=
  List.isEmpty_eq_false_iff.2 (isWord_of_isLabel h).ne_nil

/-- A label that does not read as a number is a target by its name. -/
theorem targetOperand_of_not_disguised (h : isLabel name = true) (hplain : ¬ Disguised name)
    (number : Nat) (o : Opcode) :
    targetOperand number o name = .ok (.label (String.ofList name)) := by
  simp [targetOperand, isEmpty_of_isLabel h, (read?_eq_none_iff h).2 hplain, h]

/-- One that does is an offset, or none at all. -/
theorem targetOperand_of_disguised (h : isLabel name = true) (hdisguised : Disguised name)
    (number : Nat) (o : Opcode) :
    ∃ n : Nat, Numeral.read? name = some n ∧ targetOperand number o name =
      if n < addressLimit then .ok (.offset (UInt32.ofNat n))
      else .error (.invalidOperand number (String.ofList name)) := by
  cases hread : Numeral.read? name with
  | none => exact absurd hdisguised ((read?_eq_none_iff h).1 hread)
  | some v =>
    obtain ⟨n, rfl⟩ := exists_nat_of_read? h hread
    refine ⟨n, rfl, ?_⟩
    simp [targetOperand, isEmpty_of_isLabel h, hread]

/-! ### Texts -/

variable {pre post : List (List Char)} {source : String} {l : Listing} {image : List UInt8}

/-- The items of lines that are numbered from one on. -/
def readLines (rows : List (List Char)) : Except AssemblyError Listing := do
  let items ← (rows.zipIdx 1).mapM fun (line, number) => readLine number line
  return items.flatten

/-- A text that reads has on each line what that line reads as. -/
theorem read_eq_ok (h : read source = .ok l) (hlines : lines source.toList = pre ++ line :: post) :
    ∃ front items rest, readLines pre = .ok front ∧
      readLine (pre.length + 1) line = .ok items ∧ l = front ++ (items ++ rest) := by
  obtain ⟨rows, hrows, hl⟩ := ok_of_bind h
  cases hl
  rw [hlines, List.zipIdx_append, List.zipIdx_cons, List.mapM_append] at hrows
  obtain ⟨front, hfront, hrows⟩ := ok_of_bind hrows
  obtain ⟨others, hothers, hrows⟩ := ok_of_bind hrows
  cases hrows
  rw [List.mapM_cons] at hothers
  obtain ⟨items, hitems, hothers⟩ := ok_of_bind hothers
  obtain ⟨rest, -, hothers⟩ := ok_of_bind hothers
  cases hothers
  rw [Nat.add_comm 1] at hitems
  exact ⟨front.flatten, items, rest.flatten, by rw [readLines, hfront]; rfl, hitems, by simp⟩

theorem build_of_assemble (h : assemble source = .ok image) (hl : read source = .ok l) :
    l.build = .ok image := by
  rw [assemble, hl] at h
  cases hbuild : l.build with
  | ok bytes =>
    simp only [hbuild, bind, Except.bind, pure, Except.pure, Except.ok.injEq] at h
    rw [h]
  | error e => simp [hbuild, bind, Except.bind, throw, throwThe, MonadExceptOf.throw] at h

end Assembly

namespace Listing

variable {front rest : Listing} {name : String}

/-- The first definition of a label counts. -/
theorem lookup_labels_of_not_mem (h : .label name ∉ front) :
    (Listing.labels (front ++ .label name :: rest)).lookup name = some front.size := by
  have hfront : (front.labelsFrom 0).lookup name = none := by
    refine List.lookup_eq_none_iff.2 fun p hp => ?_
    have hne : name ≠ p.1 := by
      rintro rfl
      exact h (mem_of_mem_labelsFrom hp)
    simpa using hne
  rw [Listing.labels, labelsFrom_append, List.lookup_append, hfront]
  simp [labelsFrom]

end Listing

namespace Assembly

theorem encode_of_aims {o : Opcode} {aim : Target → Instruction} (h : Aims o aim)
    {labels : List (String × Nat)} {name : String} {n : Nat}
    (hlookup : labels.lookup name = some n) :
    (aim (.label name)).encode labels = .ok (o.code :: BigEndian.encode 4 n) := by
  cases h <;> simp [Instruction.encode, Instruction.operands, Instruction.opcode, Target.resolve,
    hlookup, Field.encodeAll, Field.encode, bind, Except.bind, pure, Except.pure]

theorem written_of_aims {o : Opcode} {aim : Target → Instruction} (h : Aims o aim)
    (place : String → UInt32) (name : String) :
    (aim (.label name)).written place = o.code :: BigEndian.encode 4 (place name).toNat := by
  cases h <;> rfl

/-- Any mnemonic and word make such a line, with gaps around them and a comment behind. -/
theorem hasOperand_of_isWord {mnemonic gap word indent trail comment : List Char}
    (hmnemonic : IsMnemonic o mnemonic) (hgap : IsGap gap) (hne : gap ≠ []) (hword : IsWord word)
    (hindent : IsGap indent) (htrail : IsGap trail) (hcomment : IsComment comment) :
    HasOperand o word (indent ++ (mnemonic ++ gap ++ word) ++ trail ++ comment) := by
  have hpiece := hmnemonic.isWord.isPiece.append hgap hword.isPiece
  have hguarded : Guarded (mnemonic ++ gap ++ word) :=
    hword.unmarked.guarded.behind (hmnemonic.isWord.unmarked.append hgap.unmarked)
  have hsplit := splitLabel_of_guarded hguarded
    (trimBlanks_stripComment hindent hpiece.tight hpiece.closed htrail hcomment)
  obtain ⟨rest, hblank, htrim⟩ := splitAtFirst?_gap hmnemonic.isWord hgap hne hword.tight
  exact ⟨mnemonic, rest, by rw [hsplit]; exact hblank, ofMnemonic?_of_isMnemonic hmnemonic, htrim⟩

theorem readLine_of_aims (haims : Aims o aim) (hline : HasOperand o text line) (number : Nat) :
    readLine number line = (targetOperand number o text).map (itemsWith line ∘ aim) := by
  rw [readLine_of_hasOperand hline, readInstruction_of_aims haims]
  cases targetOperand number o text <;> rfl

/-- A text has an instruction behind the first part of its listing, and there it is laid out in
these bytes. -/
structure LaidOut (source : String) (l front : Listing) (i : Instruction) (bytes : List UInt8) :
    Prop where
  split : ∃ rest, l = front ++ .instruction i :: rest
  encode : i.encode l.labels = .ok bytes
  stands : ∀ image, assemble source = .ok image → Stands image front.size bytes

/-- A jump or a binding to a label that is defined once means the label, whatever else the text has:
the line reads as the instruction for that label, and is laid out with the offset where the label is
defined. Only labels that read as numbers do not mean the label: they are an offset themselves, or
they are refused. -/
theorem label_operand (haims : Aims o aim) (hname : isLabel name = true)
    (hlines : lines source.toList = pre ++ line :: post) (hline : HasOperand o name line) :
    (¬ Disguised name →
      readLine (pre.length + 1) line =
        .ok (itemsWith line (aim (.label (String.ofList name)))) ∧
      ∀ l, read source = .ok l → l.count (.label (String.ofList name)) = 1 →
        ∃ front before after, readLines pre = .ok front ∧
          l = before ++ .label (String.ofList name) :: after ∧
          LaidOut source l (front ++ heading line) (aim (.label (String.ofList name)))
            (o.code :: BigEndian.encode 4 (Listing.size before))) ∧
    (Disguised name →
      ∃ n : Nat, Numeral.read? name = some n ∧
        readLine (pre.length + 1) line =
          if n < addressLimit then .ok (itemsWith line (aim (.offset (UInt32.ofNat n))))
          else .error (.invalidOperand (pre.length + 1) (String.ofList name))) := by
  have hread := readLine_of_aims haims hline (pre.length + 1)
  refine ⟨fun hplain => ?_, fun hdisguised => ?_⟩
  · rw [targetOperand_of_not_disguised hname hplain] at hread
    refine ⟨hread, fun l hl hcount => ?_⟩
    obtain ⟨front, items, rest, hfront, hitems, hparts⟩ := read_eq_ok hl hlines
    rw [hread] at hitems
    cases hitems
    obtain ⟨before, after, hlabel⟩ :=
      List.append_of_mem (List.count_pos_iff.1 (hcount ▸ Nat.one_pos))
    have hfirst : .label (String.ofList name) ∉ before := by
      rw [hlabel, List.count_append, List.count_cons_self] at hcount
      exact List.count_eq_zero.1 (by omega)
    have hlookup : l.labels.lookup (String.ofList name) = some (Listing.size before) :=
      hlabel ▸ Listing.lookup_labels_of_not_mem hfirst
    have hsplit : l = front ++ heading line ++
        .instruction (aim (.label (String.ofList name))) :: rest := by
      simpa [itemsWith] using hparts
    refine ⟨front, before, after, hfront, hlabel, ⟨rest, hsplit⟩, encode_of_aims haims hlookup,
      fun image himage => ?_⟩
    obtain ⟨place, hlaid⟩ := Listing.exists_laid (build_of_assemble himage hl)
    have hplaced : (Listing.size (front ++ heading line),
        aim (.label (String.ofList name))) ∈ l.placed := by
      rw [hsplit, Listing.placed, Listing.placedFrom_append]
      simp [Listing.placedFrom]
    have hstands := hlaid.stands _ hplaced
    rwa [written_of_aims haims, hlaid.places before _ after hlabel] at hstands
  · obtain ⟨n, hn, htarget⟩ := targetOperand_of_disguised hname hdisguised (pre.length + 1) o
    refine ⟨n, hn, ?_⟩
    rw [hread, htarget]
    split <;> rfl

/-- A binding to a label that begins with an underscore, as numerals may, and is none. -/
def underscored : String :=
  "HALT\n_0x: PUSH 1\nhere: procFun\t_0x ; once more\n"

def underscoredListing : Listing :=
  [.instruction (.plain .halt), .label "_0x", .instruction (.push 1), .label "here",
    .instruction (.bindAt (.label "_0x"))]

theorem label_operand_of_underscored :
    Aims .bindAt .bindAt ∧ isLabel "_0x".toList = true ∧
      lines underscored.toList = ["HALT".toList, "_0x: PUSH 1".toList] ++
        "here: procFun\t_0x ; once more".toList :: [[]] ∧
      HasOperand .bindAt "_0x".toList "here: procFun\t_0x ; once more".toList ∧
      ¬ Disguised "_0x".toList ∧ read underscored = .ok underscoredListing ∧
      underscoredListing.count (.label "_0x") = 1 ∧
      assemble underscored = .ok [127, 0, 0, 0, 0, 1, 3, 0, 0, 0, 1] ∧
      ∃ front before after, readLines ["HALT".toList, "_0x: PUSH 1".toList] = .ok front ∧
        underscoredListing = before ++ .label "_0x" :: after ∧
        LaidOut underscored underscoredListing
          (front ++ heading "here: procFun\t_0x ; once more".toList) (.bindAt (.label "_0x"))
          (Opcode.bindAt.code :: BigEndian.encode 4 (Listing.size before)) := by
  have hname : isLabel "_0x".toList = true := by decide
  have hlines : lines underscored.toList = ["HALT".toList, "_0x: PUSH 1".toList] ++
      "here: procFun\t_0x ; once more".toList :: [[]] := by decide +kernel
  have hline : HasOperand .bindAt "_0x".toList "here: procFun\t_0x ; once more".toList :=
    ⟨"procFun".toList, "_0x".toList, by decide +kernel, by decide +kernel, by decide +kernel⟩
  have hplain : ¬ Disguised "_0x".toList := (read?_eq_none_iff hname).1 (by decide)
  have hread : read underscored = .ok underscoredListing := by rfl
  have hcount : underscoredListing.count (.label "_0x") = 1 := by decide +kernel
  obtain ⟨-, hmeans⟩ := (label_operand .bindAt hname hlines hline).1 hplain
  rw [String.ofList_toList] at hmeans
  exact ⟨.bindAt, hname, hlines, hline, hplain, hread, hcount, by rfl, hmeans _ hread hcount⟩

/-- A label that is one digit behind an underscore is laid out as that digit, and not where it is
defined, as the same listing with the label would be. -/
theorem label_operand_read_as_number :
    isLabel "_1".toList = true ∧ HasOperand .jump "_1".toList "JUMP _1".toList ∧
      read "_1:\nJUMP _1\n" = .ok [.label "_1", .instruction (.jump (.offset 1))] ∧
      assemble "_1:\nJUMP _1\n" = .ok [22, 0, 0, 0, 1] ∧
      Listing.build [.label "_1", .instruction (.jump (.label "_1"))] = .ok [22, 0, 0, 0, 0] := by
  have hname : isLabel "_1".toList = true := by decide
  have hmnemonic : IsMnemonic .jump "JUMP".toList := isMnemonic_mnemonic .jump
  have htext : "JUMP _1".toList = [] ++ ("JUMP".toList ++ [' '] ++ "_1".toList) ++ [] ++ [] := by
    decide +kernel
  have hline : HasOperand .jump "_1".toList "JUMP _1".toList := by
    rw [htext]
    exact hasOperand_of_isWord hmnemonic isGap_space (List.cons_ne_nil _ _)
      (isWord_of_isLabel hname) isGap_nil isGap_nil .none
  exact ⟨hname, hline, by rfl, by rfl, by rfl⟩

end Assembly

end BytecodeKernel
