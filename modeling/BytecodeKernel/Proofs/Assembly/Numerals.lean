import BytecodeKernel.Proofs.Assembly.Labels
import Mathlib.Data.Nat.Digits.Defs
/-!
Numerals as operands. A numeral is to be one or more digits, in decimal or behind the mark for
hexadecimal, with at most a minus in front; its underscores count for nothing. The reader takes all
of these, and with their values. But behind the minus and the mark it reads a number of either
sign, so it takes numerals with a second sign as well, and of all texts it takes just these two
kinds.
-/

namespace BytecodeKernel

namespace Numeral

variable {base : Nat} {mark sign digits text : List Char} {c : Char} {s v : Int}

/-! ### The grammar -/

/-- What digits are worth, each at its place. -/
def worth (base : Nat) (digits : List Char) : Nat :=
  Nat.ofDigits base (digits.filterMap Hex.value?).reverse

/-- A text without its underscores. -/
def bare (text : List Char) : List Char :=
  text.filter (· != '_')

/-- The marks of the bases. -/
inductive Mark : Nat → List Char → Prop where
  | decimal : Mark 10 []
  | hexadecimal {x : Char} : x = 'x' ∨ x = 'X' → Mark 16 ['0', x]

/-- At most one sign, with the factor that it stands for. -/
inductive Sign : List Char → Int → Prop where
  | absent : Sign [] 1
  | plus : Sign ['+'] 1
  | minus : Sign ['-'] (-1)

/-- Digits behind the mark of their base, with this sign between the two. -/
inductive Magnitude (sign : List Char) : List Char → Int → Prop where
  | intro {base : Nat} {mark digits : List Char} {s : Int} : Mark base mark → Sign sign s →
      Digits base digits → Magnitude sign (mark ++ (sign ++ digits)) (s * worth base digits)

/-- A magnitude behind at most a minus. Where the magnitude has no sign of its own, this is all that
a numeral is to be. -/
inductive Denotes (sign : List Char) : List Char → Int → Prop where
  | plain {text : List Char} {v : Int} : Magnitude sign text v → Denotes sign text v
  | negated {text : List Char} {v : Int} : Magnitude sign text v → Denotes sign ('-' :: text) (-v)

/-- A text with a sign other than a minus in front. -/
def Resigned (text : List Char) : Prop :=
  '+' ∈ text ∨ '-' ∈ text.tail

/-- An integer of a number of bits, one of them for the sign. -/
def Fits (bits : Nat) (v : Int) : Prop :=
  -2 ^ (bits - 1) ≤ v ∧ v < 2 ^ (bits - 1)

instance (bits : Nat) : DecidablePred (Fits bits) :=
  fun _ => inferInstanceAs (Decidable (_ ∧ _))

/-! ### What the readers take -/

theorem exists_digit? (h : (digit? base c).isSome) :
    ∃ d, Hex.value? c = some d ∧ digit? base c = some d := by
  obtain ⟨d, hd⟩ := Option.isSome_iff_exists.1 h
  exact ⟨d, (Option.filter_eq_some_iff.1 hd).1, hd⟩

/-- Digit by digit, most significant first, comes to what the digits are worth. -/
theorem foldlM_eq_worth (h : ∀ c ∈ digits, (digit? base c).isSome) :
    digits.foldlM (fun n c => (digit? base c).map (n * base + ·)) 0 =
      some (worth base digits) := by
  induction digits using List.reverseRecOn with
  | nil => rfl
  | append_singleton front c ih =>
    obtain ⟨d, hvalue, hdigit⟩ := exists_digit? (h c (by simp))
    rw [List.foldlM_append, ih fun c hc => h c (List.mem_append_left _ hc)]
    simp [worth, hvalue, hdigit, Nat.ofDigits_cons, Nat.mul_comm, Nat.add_comm]

theorem digits?_of_digits (h : Digits base digits) :
    digits? base digits = some (worth base digits) := by
  rw [digits?, if_neg (mt List.isEmpty_iff.1 h.1), foldlM_eq_worth h.2]

theorem digits?_eq_some_iff {n : Nat} :
    digits? base digits = some n ↔ Digits base digits ∧ n = worth base digits := by
  refine ⟨fun h => ?_, fun ⟨h, hn⟩ => hn ▸ digits?_of_digits h⟩
  have hdigits : Digits base digits := isSome_digits?_iff.1 (Option.isSome_of_eq_some h)
  exact ⟨hdigits, Option.some.inj (h.symm.trans (digits?_of_digits hdigits))⟩

theorem Digits.unsigned (h : Digits base digits) : ∀ c ∈ digits, c ≠ '-' ∧ c ≠ '+' := by
  intro c hc
  obtain ⟨d, hvalue, -⟩ := exists_digit? (h.2 c hc)
  have hminus : Hex.value? '-' = none := by decide
  have hplus : Hex.value? '+' = none := by decide
  constructor <;> rintro rfl
  · exact absurd (hminus.symm.trans hvalue) nofun
  · exact absurd (hplus.symm.trans hvalue) nofun

theorem Mark.unsigned (h : Mark base mark) : ∀ c ∈ mark, c ≠ '-' ∧ c ≠ '+' := by
  cases h with
  | decimal => simp
  | hexadecimal hx => rcases hx with rfl | rfl <;> simp

theorem signed?_of_sign (hsign : Sign sign s) (hdigits : Digits base digits) :
    signed? base (sign ++ digits) = some (s * worth base digits) := by
  have hread := digits?_of_digits hdigits
  cases hsign with
  | absent => simpa [hread] using signed?_of_unsigned hdigits.unsigned base
  | plus | minus => simp [signed?, hread]

theorem signed?_eq_some_iff : signed? base text = some v ↔
    ∃ sign s digits, Sign sign s ∧ Digits base digits ∧ text = sign ++ digits ∧
      v = s * worth base digits := by
  constructor
  · intro h
    have hread : ∃ sign s digits, Sign sign s ∧ text = sign ++ digits ∧
        ∃ n, digits? base digits = some n ∧ s * n = v := by
      revert h
      fun_cases signed? base text with
      | case1 digits =>
        exact fun h => ⟨_, _, digits, .minus, rfl, by simpa [Option.bind_eq_some_iff] using h⟩
      | case2 digits => exact fun h => ⟨_, _, digits, .plus, rfl, by simpa using h⟩
      | case3 => exact fun h => ⟨_, _, text, .absent, rfl, by simpa using h⟩
    obtain ⟨sign, s, digits, hsign, rfl, n, hn, rfl⟩ := hread
    obtain ⟨hdigits, rfl⟩ := digits?_eq_some_iff.1 hn
    exact ⟨sign, s, digits, hsign, hdigits, rfl, rfl⟩
  · rintro ⟨sign, s, digits, hsign, hdigits, rfl, rfl⟩
    exact signed?_of_sign hsign hdigits

/-- Digits behind a sign do not begin with the mark of hexadecimal. -/
theorem not_marked (hsign : Sign sign s) (hdigits : Digits 10 digits) {x : Char}
    (hx : x = 'x' ∨ x = 'X') (rest : List Char) : sign ++ digits ≠ '0' :: x :: rest := by
  cases hsign with
  | absent =>
    rintro rfl
    exact not_digits_of_mark hx ['0'] rest hdigits
  | plus | minus => simp

theorem magnitude?_of_magnitude (h : Magnitude sign text v) : magnitude? text = some v := by
  obtain ⟨hmark, hsign, hdigits⟩ := h
  cases hmark with
  | decimal =>
    rw [List.nil_append, magnitude?]
    · exact signed?_of_sign hsign hdigits
    · exact not_marked hsign hdigits (.inl rfl)
    · exact not_marked hsign hdigits (.inr rfl)
  | hexadecimal hx =>
    rcases hx with rfl | rfl <;> exact signed?_of_sign hsign hdigits

theorem magnitude?_eq_some_iff : magnitude? text = some v ↔ ∃ sign, Magnitude sign text v := by
  refine ⟨fun h => ?_, fun ⟨_, h⟩ => magnitude?_of_magnitude h⟩
  have hmarked {base : Nat} {mark rest : List Char} (hmark : Mark base mark)
      (h : signed? base rest = some v) : ∃ sign, Magnitude sign (mark ++ rest) v := by
    obtain ⟨sign, s, digits, hsign, hdigits, rfl, rfl⟩ := signed?_eq_some_iff.1 h
    exact ⟨sign, .intro hmark hsign hdigits⟩
  revert h
  fun_cases magnitude? text with
  | case1 rest => exact hmarked (.hexadecimal (.inl rfl))
  | case2 rest => exact hmarked (.hexadecimal (.inr rfl))
  | case3 => exact hmarked .decimal

/-- A magnitude that begins with a minus has it for its sign and no mark. -/
theorem Magnitude.of_minus (h : Magnitude sign ('-' :: text) v) : Magnitude [] text (-v) := by
  generalize htext : '-' :: text = whole at h
  obtain ⟨hmark, hsign, hdigits⟩ := h
  cases hmark with
  | hexadecimal => simp at htext
  | decimal =>
    cases hsign with
    | absent =>
      simp only [List.nil_append] at htext
      exact absurd rfl (hdigits.unsigned '-' (htext ▸ List.mem_cons_self)).1
    | plus => simp at htext
    | minus =>
      obtain rfl : text = _ := (List.cons.inj htext).2
      simpa using Magnitude.intro .decimal .absent hdigits

theorem value?_eq_some_iff : value? text = some v ↔ ∃ sign, Denotes sign (bare text) v := by
  rw [value?, ← bare]
  split
  · rename_i rest hrest
    rw [hrest, Option.map_eq_some_iff]
    constructor
    · rintro ⟨m, hm, rfl⟩
      obtain ⟨sign, hmagnitude⟩ := magnitude?_eq_some_iff.1 hm
      exact ⟨sign, .negated hmagnitude⟩
    · rintro ⟨sign, hdenotes⟩
      cases hdenotes with
      | plain h => exact ⟨-v, magnitude?_of_magnitude h.of_minus, Int.neg_neg v⟩
      | negated h => exact ⟨_, magnitude?_of_magnitude h, rfl⟩
  · rename_i hplain
    rw [magnitude?_eq_some_iff]
    constructor
    · rintro ⟨sign, h⟩
      exact ⟨sign, .plain h⟩
    · rintro ⟨sign, h⟩
      refine ⟨sign, ?_⟩
      generalize htext : bare text = whole at h
      cases h with
      | plain h => exact h
      | negated => exact absurd htext (hplain _)

theorem read?_eq_some_iff :
    read? text = some v ↔ Fits 64 v ∧ ∃ sign, Denotes sign (bare text) v := by
  rw [read?, Option.filter_eq_some_iff, value?_eq_some_iff, decide_eq_true_iff]
  exact and_comm

/-! ### Second signs -/

theorem Magnitude.unsigned (h : Magnitude [] text v) : ∀ c ∈ text, c ≠ '-' ∧ c ≠ '+' := by
  obtain ⟨hmark, hsign, hdigits⟩ := h
  rw [List.nil_append]
  exact fun c hc => (List.mem_append.1 hc).elim (hmark.unsigned c) (hdigits.unsigned c)

theorem Denotes.not_resigned (h : Denotes [] text v) : ¬ Resigned text := by
  cases h with
  | plain h =>
    rintro (hplus | hminus)
    · exact (h.unsigned _ hplus).2 rfl
    · exact (h.unsigned _ (List.mem_of_mem_tail hminus)).1 rfl
  | negated h =>
    rintro (hplus | hminus)
    · exact (h.unsigned _ ((List.mem_cons.1 hplus).resolve_left (by decide))).2 rfl
    · exact (h.unsigned _ hminus).1 rfl

/-- A numeral without a second sign is one of the grammar. -/
theorem Denotes.unsigned (h : Denotes sign text v) (hplain : ¬ Resigned text) :
    Denotes [] text v := by
  rw [Resigned, not_or] at hplain
  cases h with
  | plain h =>
    obtain ⟨hmark, hsign, hdigits⟩ := h
    cases hsign with
    | absent => exact .plain (.intro hmark .absent hdigits)
    | plus => exact absurd (by simp) hplain.1
    | minus =>
      cases hmark with
      | decimal => simpa using Denotes.negated (Magnitude.intro .decimal .absent hdigits)
      | hexadecimal => exact absurd (by simp) hplain.2
  | negated h =>
    obtain ⟨hmark, hsign, hdigits⟩ := h
    cases hsign with
    | absent => exact .negated (.intro hmark .absent hdigits)
    | plus => exact absurd (by simp) hplain.1
    | minus => exact absurd (by simp) hplain.2

theorem read?_of_not_resigned (h : ¬ Resigned (bare text)) (v : Int) :
    read? text = some v ↔ Fits 64 v ∧ Denotes [] (bare text) v := by
  rw [read?_eq_some_iff]
  exact and_congr_right fun _ =>
    ⟨fun ⟨_, hdenotes⟩ => hdenotes.unsigned h, fun hdenotes => ⟨[], hdenotes⟩⟩

/-! ### Words of 128 bits -/

/-- The reading of a numeral in words of 128 bits: there is no number where the magnitude does not
fit in one, and no answer at all where the negation of the magnitude does not. -/
def readWide? (text : List Char) : Option (Option Int) :=
  match bare text with
  | '-' :: rest =>
    match (magnitude? rest).filter (Fits 128) with
    | some m => if Fits 128 (-m) then some ((some (-m)).filter (Fits 64)) else none
    | none => some none
  | rest => some (((magnitude? rest).filter (Fits 128)).filter (Fits 64))

/-- A minus in front of the least magnitude of 128 bits, which takes a second minus to write. -/
def Extreme (text : List Char) : Prop :=
  ∃ rest, bare text = '-' :: rest ∧ Magnitude ['-'] rest (-2 ^ 127)

theorem Magnitude.minus_of_neg (h : Magnitude sign text v) (hv : v < 0) :
    Magnitude ['-'] text v := by
  obtain ⟨hmark, hsign, hdigits⟩ := h
  cases hsign with
  | absent | plus => omega
  | minus => exact .intro hmark .minus hdigits

theorem Magnitude.minus_mem (h : Magnitude ['-'] text v) : '-' ∈ text := by
  obtain ⟨hmark, hsign, hdigits⟩ := h
  simp

theorem filter_fits_of_fits {bits wide : Nat} (h : bits ≤ wide) (v? : Option Int) :
    (v?.filter (Fits wide)).filter (Fits bits) = v?.filter (Fits bits) := by
  have hpow : (2 : Int) ^ (bits - 1) ≤ 2 ^ (wide - 1) :=
    pow_le_pow_right₀ (by decide) (Nat.sub_le_sub_right h 1)
  cases v? with
  | none => rfl
  | some v =>
    simp only [Option.filter_some, Fits]
    grind

theorem read?_eq_filter : read? text = (value? text).filter (Fits 64) :=
  rfl

theorem readWide?_of_minus {rest : List Char} (h : bare text = '-' :: rest) :
    readWide? text = match (magnitude? rest).filter (Fits 128) with
      | some m => if Fits 128 (-m) then some ((some (-m)).filter (Fits 64)) else none
      | none => some none := by
  simp only [readWide?, h]

/-- Only the least of the words has a negation that is none. -/
theorem fits_neg_iff {m : Int} (h : Fits 128 m) : Fits 128 (-m) ↔ m ≠ -2 ^ 127 := by
  simp only [Fits] at *
  omega

theorem extreme_iff {rest : List Char} (h : bare text = '-' :: rest) :
    Extreme text ↔ magnitude? rest = some (-2 ^ 127) := by
  rw [magnitude?_eq_some_iff]
  constructor
  · rintro ⟨rest', hrest, hmagnitude⟩
    obtain rfl : rest = rest' := (List.cons.inj (h.symm.trans hrest)).2
    exact ⟨_, hmagnitude⟩
  · rintro ⟨sign, hmagnitude⟩
    exact ⟨rest, h, hmagnitude.minus_of_neg (by decide)⟩

/-- The words are wide enough for every other text. -/
theorem readWide?_eq (text : List Char) :
    (readWide? text = none ↔ Extreme text) ∧
      (¬ Extreme text → readWide? text = some (read? text)) := by
  rw [read?_eq_filter, value?, ← bare]
  split
  · rename_i rest hrest
    rw [readWide?_of_minus hrest, extreme_iff hrest]
    cases hm : magnitude? rest with
    | none => simp
    | some m =>
      by_cases hfits : Fits 128 m
      · simp [Option.filter_some, hfits, fits_neg_iff hfits]
      · have hne : m ≠ -2 ^ 127 := by
          rintro rfl
          exact hfits (by decide)
        have hnarrow : ¬ Fits 64 (-m) := by
          simp only [Fits] at *
          omega
        simpa [Option.filter_some, hfits, hnarrow] using hne
  · rename_i hplain
    have hextreme : ¬ Extreme text := by
      rintro ⟨rest, hrest, -⟩
      exact hplain rest hrest
    have hwide : readWide? text = some ((magnitude? (bare text)).filter (Fits 64)) := by
      rw [readWide?]
      split
      · rename_i rest hrest
        exact absurd hrest (hplain rest)
      · rw [filter_fits_of_fits (by decide)]
    simp [hwide, hextreme]

end Numeral

namespace Assembly

open Numeral

/-! ### Operands -/

variable {line : Nat} {o : Opcode} {aim : Target → Instruction} {text numeral : List Char}
  {i : Instruction} {v lo hi : Int}

/-- An instruction whose operand has a number in it. -/
def HasNumber : Instruction → Prop
  | .push _ | .pushLong _ | .spawn _ _ | .bindAt (.offset _) | .jump (.offset _) => True
  | _ => False

/-- What the text of an operand has for its number, and the instruction that each number makes of
it, as far as the numbers go. -/
inductive Makes : Opcode → (text numeral : List Char) → Int → Instruction → Prop where
  | push {text : List Char} {v : Int} : -0x80000000 ≤ v → v < 0x100000000 →
      Makes .push text text v (.push (Int32.ofInt v))
  | pushLong {text : List Char} {v : Int} : Makes .pushLong text text v (.pushLong (Int64.ofInt v))
  | spawn {text numeral name chars : List Char} {v : Int} :
      splitAtFirst? isBlank text = some (numeral, name) →
      Quoted.read? (trimBlanks name) = some chars → -0x80000000 ≤ v → v < 0x80000000 →
      Makes .spawn text numeral v (.spawn (Int32.ofInt v) (Utf8.encode chars))
  | offset {o : Opcode} {aim : Target → Instruction} {text : List Char} {n : Nat} : Aims o aim →
      n < addressLimit → Makes o text text n (aim (.offset (UInt32.ofNat n)))

theorem numberOperand_eq_ok_iff : numberOperand line o text = .ok v ↔ read? text = some v := by
  rw [numberOperand]
  split
  · rename_i w hw
    simp [hw]
  · rename_i hnone
    split <;> simp [hnone]

theorem boundedOperand_eq_ok_iff :
    boundedOperand line o lo hi text = .ok v ↔ read? text = some v ∧ lo ≤ v ∧ v < hi := by
  constructor
  · intro h
    obtain ⟨w, hw, h⟩ := ok_of_bind h
    split at h
    · rename_i hbounds
      cases h
      exact ⟨numberOperand_eq_ok_iff.1 hw, hbounds⟩
    · contradiction
  · rintro ⟨hread, hbounds⟩
    rw [boundedOperand, numberOperand_eq_ok_iff.2 hread]
    exact if_pos hbounds

theorem targetOperand_eq_offset_iff {target : UInt32} :
    targetOperand line o text = .ok (.offset target) ↔
      ∃ n : Nat, read? text = some (n : Int) ∧ n < addressLimit ∧ target = UInt32.ofNat n := by
  rw [targetOperand]
  split
  · rename_i hempty
    have hnone : read? text = none := by
      rw [List.isEmpty_iff.1 hempty]
      decide
    simp [hnone]
  · split
    · rename_i v hread
      split
      · rename_i hbounds
        obtain ⟨n, rfl⟩ := Int.eq_ofNat_of_zero_le hbounds.1
        rw [Int.toNat_natCast, Except.ok.injEq, Target.offset.injEq]
        constructor
        · rintro rfl
          exact ⟨n, hread, Int.ofNat_lt.1 hbounds.2, rfl⟩
        · rintro ⟨k, hk, -, rfl⟩
          rw [Int.ofNat_inj.1 (Option.some.inj (hread.symm.trans hk))]
      · rename_i hbounds
        constructor
        · intro h
          cases h
        · rintro ⟨n, hn, hlt, -⟩
          rw [Option.some.inj (hread.symm.trans hn)] at hbounds
          exact absurd ⟨Int.natCast_nonneg n, Int.ofNat_lt.2 hlt⟩ hbounds
    · rename_i hread
      split <;> simp [hread]

theorem quotedOperand_eq_ok_iff {shown : List Char} {bytes : List UInt8} :
    quotedOperand line text shown = .ok bytes ↔
      ∃ chars, Quoted.read? text = some chars ∧ bytes = Utf8.encode chars := by
  rw [quotedOperand]
  split
  · rename_i chars hchars
    simp [hchars, eq_comm]
  · rename_i hnone
    simp [hnone]

theorem makes_of_readInstruction (h : readInstruction line o text = .ok i) (hi : HasNumber i) :
    ∃ numeral v, Makes o text numeral v i ∧ read? numeral = some v := by
  have htarget {o : Opcode} {aim : Target → Instruction} (haims : Aims o aim)
      (h : readInstruction line o text = .ok i) :
      ∃ numeral v, Makes o text numeral v i ∧ read? numeral = some v := by
    rw [readInstruction_of_aims haims] at h
    obtain ⟨target, hread, rfl⟩ := ok_of_map h
    cases target with
    | label name => cases haims <;> exact hi.elim
    | offset target =>
      obtain ⟨n, hn, hlt, rfl⟩ := targetOperand_eq_offset_iff.1 hread
      exact ⟨text, n, .offset haims hlt, hn⟩
  cases o with
  | push =>
    obtain ⟨v, hv, h⟩ := ok_of_bind h
    cases h
    obtain ⟨hread, hlo, hhi⟩ := boundedOperand_eq_ok_iff.1 hv
    exact ⟨text, v, .push hlo hhi, hread⟩
  | pushLong =>
    obtain ⟨v, hv, h⟩ := ok_of_bind h
    cases h
    exact ⟨text, v, .pushLong, numberOperand_eq_ok_iff.1 hv⟩
  | spawn =>
    rw [readInstruction] at h
    split at h
    · rename_i numeral name hsplit
      obtain ⟨v, hv, h⟩ := ok_of_bind h
      obtain ⟨bytes, hbytes, h⟩ := ok_of_bind h
      cases h
      obtain ⟨hread, hlo, hhi⟩ := boundedOperand_eq_ok_iff.1 hv
      obtain ⟨chars, hchars, rfl⟩ := quotedOperand_eq_ok_iff.1 hbytes
      exact ⟨numeral, v, .spawn hsplit hchars hlo hhi, hread⟩
    · contradiction
  | bindAt => exact htarget .bindAt h
  | jump => exact htarget .jump h
  | pushText =>
    rw [readInstruction] at h
    split at h
    · contradiction
    · obtain ⟨bytes, -, h⟩ := ok_of_bind h
      cases h
      exact hi.elim
  | _ =>
    simp only [readInstruction] at h
    split at h
    · cases h
      exact hi.elim
    · contradiction

theorem readInstruction_of_makes (h : Makes o text numeral v i) (hread : read? numeral = some v) :
    readInstruction line o text = .ok i ∧ HasNumber i := by
  cases h with
  | push hlo hhi =>
    simp [readInstruction, boundedOperand_eq_ok_iff.2 ⟨hread, hlo, hhi⟩, bind, Except.bind, pure,
      Except.pure, HasNumber]
  | pushLong =>
    simp [readInstruction, numberOperand_eq_ok_iff.2 hread, bind, Except.bind, pure, Except.pure,
      HasNumber]
  | spawn hsplit hname hlo hhi =>
    simp only [readInstruction, hsplit, boundedOperand_eq_ok_iff.2 ⟨hread, hlo, hhi⟩,
      quotedOperand_eq_ok_iff.2 ⟨_, hname, rfl⟩, bind, Except.bind, pure, Except.pure, HasNumber,
      and_self]
  | offset haims hlt =>
    rw [readInstruction_of_aims haims, targetOperand_eq_offset_iff.2 ⟨_, hread, hlt, rfl⟩]
    exact ⟨rfl, by cases haims <;> trivial⟩

/-- What is read as a number, and by which instructions. As long as a text has no sign but a minus
in front, these are the numerals of the grammar, and 128 bits are enough to read it. Otherwise it is
none of them, but it is read all the same if it is a numeral with a second sign behind its minus or
its mark. An instruction with a number has one of these in its operand, and its value. -/
theorem integer_operands (text : List Char) :
    (¬ Resigned (bare text) →
      (∀ v, read? text = some v ↔ Fits 64 v ∧ Denotes [] (bare text) v) ∧
        readWide? text = some (read? text)) ∧
    (Resigned (bare text) →
      (∀ v, ¬ Denotes [] (bare text) v) ∧
        (∀ v, read? text = some v ↔ Fits 64 v ∧ ∃ sign, Denotes sign (bare text) v) ∧
        (readWide? text = none ↔ Extreme text) ∧
        (¬ Extreme text → readWide? text = some (read? text))) ∧
    ∀ line o i, readInstruction line o text = .ok i ∧ HasNumber i ↔
      ∃ numeral v, Makes o text numeral v i ∧ read? numeral = some v := by
  refine ⟨fun hplain => ?_, fun hresigned => ?_, fun line o i => ?_⟩
  · have hextreme : ¬ Extreme text := fun ⟨rest, hrest, hmagnitude⟩ => hplain (.inr ?_)
    · exact ⟨read?_of_not_resigned hplain, (readWide?_eq text).2 hextreme⟩
    · rw [hrest]
      exact hmagnitude.minus_mem
  · exact ⟨fun v h => h.not_resigned hresigned, fun v => read?_eq_some_iff, readWide?_eq text⟩
  · exact ⟨fun ⟨h, hi⟩ => makes_of_readInstruction h hi,
      fun ⟨_, _, hmakes, hread⟩ => readInstruction_of_makes hmakes hread⟩

/-- A numeral of the grammar, one with a second sign, and one in a spawn. -/
theorem integer_operands_of_three :
    ¬ Resigned (bare "-0x_fF".toList) ∧ read? "-0x_fF".toList = some (-255) ∧
      Denotes [] (bare "-0x_fF".toList) (-255) ∧ readWide? "-0x_fF".toList = some (some (-255)) ∧
      Resigned (bare "-0X+_1".toList) ∧ (∃ sign, Denotes sign (bare "-0X+_1".toList) (-1)) ∧
      (∀ v, ¬ Denotes [] (bare "-0X+_1".toList) v) ∧
      ∃ numeral v, read? numeral = some v ∧
        Makes .spawn "7_0\t\"up\"".toList numeral v (.spawn 70 (Utf8.encode ['u', 'p'])) := by
  have hplain : ¬ Resigned (bare "-0x_fF".toList) := by simp [Resigned, bare]
  have hresigned : Resigned (bare "-0X+_1".toList) := .inl (by decide)
  have hread : read? "-0x_fF".toList = some (-255) := by decide
  obtain ⟨hgrammar, hwide⟩ := (integer_operands "-0x_fF".toList).1 hplain
  obtain ⟨hnone, hsecond, -⟩ := (integer_operands "-0X+_1".toList).2.1 hresigned
  obtain ⟨numeral, v, hmakes, hnumeral⟩ :=
    ((integer_operands "7_0\t\"up\"".toList).2.2 1 .spawn
      (.spawn 70 (Utf8.encode ['u', 'p']))).1 ⟨by rfl, trivial⟩
  exact ⟨hplain, hread, ((hgrammar _).1 hread).2, hwide.trans (congrArg some hread), hresigned,
    ((hsecond _).1 (by decide)).2, hnone, numeral, v, hnumeral, hmakes⟩

/-- Two minuses are no numeral, but they make a number; and with the least magnitude of 128 bits
behind them, the second of the two cannot be taken back. -/
theorem integer_operands_resigned :
    (∀ v, ¬ Denotes [] (bare "--5".toList) v) ∧ read? "--5".toList = some 5 ∧
      assemble "PUSH --5" = .ok [0, 0, 0, 0, 5] ∧
      readWide? "--170141183460469231731687303715884105728".toList = none := by
  have hresigned : Resigned (bare "--5".toList) := .inr (by decide)
  exact ⟨fun v h => h.not_resigned hresigned, by decide, by rfl, by decide +kernel⟩

end Assembly

end BytecodeKernel
