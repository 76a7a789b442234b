import BytecodeKernel.Assembly.Source
import Mathlib
/-!
How a listing may be spelled. A text spells a listing if its lines, one after the other, have the
labels and instructions of the listing, each in one of its forms: a mnemonic in letters of either
case, numbers in decimal, texts between quotes, and between all of these as many spaces and tabs as
one likes, with a comment behind.
-/

namespace BytecodeKernel.Assembly

/-! ### Forms -/

/-- Spaces and tabs. -/
def IsGap (text : List Char) : Prop :=
  ∀ c ∈ text, c = ' ' ∨ c = '\t'

instance (text : List Char) : Decidable (IsGap text) :=
  List.decidableBAll _ text

/-- A number in decimal digits, behind a minus or not. Zeros may lead. -/
inductive Decimal : List Char → Int → Prop where
  | plain {digits : List Char} : digits ≠ [] → (∀ c ∈ digits, c.isDigit = true) →
      Decimal digits (Nat.ofDigitChars 10 digits 0)
  | minus {digits : List Char} : digits ≠ [] → (∀ c ∈ digits, c.isDigit = true) →
      Decimal ('-' :: digits) (-(Nat.ofDigitChars 10 digits 0 : Int))

/-- A label that is not taken for a number. -/
structure IsName (text : List Char) : Prop where
  isLabel : isLabel text = true
  read? : Numeral.read? text = none

/-- The mnemonic of an opcode, in letters of either case. -/
def IsMnemonic (o : Opcode) (word : List Char) : Prop :=
  word.map Char.toUpper = o.mnemonic.toList

inductive SpellsTarget : Target → List Char → Prop where
  | label {name : List Char} : IsName name → SpellsTarget (.label (String.ofList name)) name
  | offset {n : UInt32} {text : List Char} : Decimal text n.toNat → SpellsTarget (.offset n) text

/-- The operands of an instruction that has some. -/
inductive SpellsOperands : Instruction → List Char → Prop where
  | push {v : Int32} {text : List Char} : Decimal text v.toInt → SpellsOperands (.push v) text
  | pushLong {v : Int64} {text : List Char} : Decimal text v.toInt →
      SpellsOperands (.pushLong v) text
  | spawn {priority : Int32} {number gap chars : List Char} : Decimal number priority.toInt →
      IsGap gap → gap ≠ [] →
      SpellsOperands (.spawn priority (Utf8.encode chars)) (number ++ gap ++ Quoted.write chars)
  | bindAt {target : Target} {text : List Char} : SpellsTarget target text →
      SpellsOperands (.bindAt target) text
  | jump {target : Target} {text : List Char} : SpellsTarget target text →
      SpellsOperands (.jump target) text
  | pushText (chars : List Char) :
      SpellsOperands (.pushText (Utf8.encode chars)) (Quoted.write chars)

inductive SpellsInstruction : Instruction → List Char → Prop where
  | plain {o : Opcode} {word : List Char} : o.operandBytes = 0 → IsMnemonic o word →
      SpellsInstruction (.plain o) word
  | operands {i : Instruction} {word gap text : List Char} : IsMnemonic i.opcode word →
      IsGap gap → gap ≠ [] → SpellsOperands i text → SpellsInstruction i (word ++ gap ++ text)

/-- A label with its colon. -/
inductive SpellsLabel : String → List Char → Prop where
  | intro {name gap : List Char} : IsName name → IsGap gap →
      SpellsLabel (String.ofList name) (name ++ gap ++ [':'])

/-- What stands on a line, without its comment and the gaps around it. -/
inductive SpellsStatement : Listing → List Char → Prop where
  | blank : SpellsStatement [] []
  | label {name : String} {heading : List Char} : SpellsLabel name heading →
      SpellsStatement [.label name] heading
  | instruction {i : Instruction} {text : List Char} : SpellsInstruction i text →
      SpellsStatement [.instruction i] text
  | labelled {name : String} {heading gap text : List Char} {i : Instruction} :
      SpellsLabel name heading → IsGap gap → SpellsInstruction i text →
      SpellsStatement [.label name, .instruction i] (heading ++ gap ++ text)

inductive IsComment : List Char → Prop where
  | none : IsComment []
  | some {note : List Char} : '\n' ∉ note → IsComment (';' :: note)

inductive SpellsLine : Listing → List Char → Prop where
  | intro {items : Listing} {indent statement trail comment : List Char} : IsGap indent →
      SpellsStatement items statement → IsGap trail → IsComment comment →
      SpellsLine items (indent ++ statement ++ trail ++ comment)

/-- The text has the listing on its lines. -/
inductive Spells : Listing → List Char → Prop where
  | last {items : Listing} {line : List Char} : SpellsLine items line → Spells items line
  | next {items l : Listing} {line rest : List Char} : SpellsLine items line → Spells l rest →
      Spells (items ++ l) (line ++ '\n' :: rest)

/-! ### Characters -/

/-- The characters of labels, mnemonics and numbers. -/
def isWordChar (c : Char) : Bool :=
  isNameStart c || c.isDigit || c == '-'

theorem toNat_of_isWordChar {c : Char} (h : isWordChar c = true) :
    c.toNat = 45 ∨ 48 ≤ c.toNat ∧ c.toNat ≤ 57 ∨ 65 ≤ c.toNat ∧ c.toNat ≤ 90 ∨ c.toNat = 95 ∨
      97 ≤ c.toNat ∧ c.toNat ≤ 122 := by
  simp only [isWordChar, isNameStart, Char.isAlpha, Char.isUpper, Char.isLower, Char.isDigit,
    Bool.or_eq_true, Bool.and_eq_true, decide_eq_true_eq, beq_iff_eq, ge_iff_le,
    UInt32.le_iff_toNat_le] at h
  rcases h with (((h | h) | h) | h) | h
  · exact .inr (.inr (.inl h))
  · exact .inr (.inr (.inr (.inr h)))
  · exact .inr (.inr (.inr (.inl (h ▸ rfl))))
  · exact .inr (.inl h)
  · exact .inl (h ▸ rfl)

/-- The other characters that have a meaning of their own. -/
def isMark (c : Char) : Bool :=
  c == ':' || c == '"' || c == ';' || c == '\n'

theorem isBlank_of_isWordChar {c : Char} (h : isWordChar c = true) : isBlank c = false := by
  have hrange := toNat_of_isWordChar h
  simp only [isBlank, Bool.or_eq_false_iff, Bool.and_eq_false_iff, decide_eq_false_iff_not,
    beq_eq_false_iff_ne]
  omega

theorem isMark_of_isWordChar {c : Char} (h : isWordChar c = true) : isMark c = false := by
  simp only [isMark, Bool.or_eq_false_iff, beq_eq_false_iff_ne]
  refine ⟨⟨⟨?_, ?_⟩, ?_⟩, ?_⟩ <;> rintro rfl <;> exact absurd h (by decide)

/-- One word. -/
structure IsWord (text : List Char) : Prop where
  ne_nil : text ≠ []
  chars : ∀ c ∈ text, isWordChar c = true

/-- Text without marks. -/
def Unmarked (text : List Char) : Prop :=
  ∀ c ∈ text, isMark c = false

theorem Unmarked.append {xs ys : List Char} (hx : Unmarked xs) (hy : Unmarked ys) :
    Unmarked (xs ++ ys) :=
  List.forall_mem_append.2 ⟨hx, hy⟩

theorem Unmarked.not_mem {text : List Char} (h : Unmarked text) {c : Char}
    (hc : isMark c = true) : c ∉ text := fun hmem => by
  rw [h c hmem] at hc
  contradiction

theorem IsWord.unmarked {text : List Char} (h : IsWord text) : Unmarked text :=
  fun c hc => isMark_of_isWordChar (h.chars c hc)

theorem IsGap.unmarked {gap : List Char} (h : IsGap gap) : Unmarked gap := by
  intro c hc
  rcases h c hc with rfl | rfl <;> decide

theorem isGap_nil : IsGap [] :=
  List.forall_mem_nil _

theorem isGap_space : IsGap [' '] := by
  decide

theorem isMnemonic_mnemonic (o : Opcode) : IsMnemonic o o.mnemonic.toList := by
  cases o <;> rfl

theorem IsGap.blank {gap : List Char} (h : IsGap gap) : ∀ c ∈ gap, isBlank c = true := by
  intro c hc
  rcases h c hc with rfl | rfl <;> decide

variable {text : List Char}

theorem isWord_of_isDigit (hne : text ≠ []) (h : ∀ c ∈ text, c.isDigit = true) : IsWord text :=
  ⟨hne, fun c hc => by simp [isWordChar, h c hc]⟩

theorem Decimal.isWord {v : Int} (h : Decimal text v) : IsWord text := by
  cases h with
  | plain hne hdigits => exact isWord_of_isDigit hne hdigits
  | minus hne hdigits =>
    exact ⟨List.cons_ne_nil _ _,
      List.forall_mem_cons.2 ⟨rfl, (isWord_of_isDigit hne hdigits).chars⟩⟩

theorem isWord_of_isLabel (h : isLabel text = true) : IsWord text := by
  cases text with
  | nil => contradiction
  | cons c rest =>
    rw [isLabel, Bool.and_eq_true, List.all_eq_true] at h
    refine ⟨List.cons_ne_nil _ _, List.forall_mem_cons.2 ⟨?_, fun d hd => ?_⟩⟩
    · simp [isWordChar, h.1]
    · have hrest := h.2 d hd
      rw [Bool.or_eq_true] at hrest
      rcases hrest with hd | hd <;> simp [isWordChar, hd]

theorem isUpper_of_mem_mnemonic (o : Opcode) : ∀ c ∈ o.mnemonic.toList, c.isUpper = true :=
  List.all_eq_true.1 (by cases o <;> rfl)

theorem isAlpha_of_isUpper_toUpper {c : Char} (h : c.toUpper.isUpper = true) :
    c.isAlpha = true := by
  by_cases hlower : c.isLower = true
  · simp [Char.isAlpha, hlower]
  · have hsame : c.toUpper = c := by
      simp only [Char.isLower, Bool.and_eq_true, decide_eq_true_eq] at hlower
      exact dif_neg hlower
    rw [hsame] at h
    simp [Char.isAlpha, h]

theorem IsMnemonic.isWord {o : Opcode} {word : List Char} (h : IsMnemonic o word) :
    IsWord word := by
  refine ⟨?_, fun c hc => ?_⟩
  · rintro rfl
    exact absurd h.symm (by cases o <;> decide)
  · have hmem : c.toUpper ∈ o.mnemonic.toList := by
      rw [← show word.map Char.toUpper = o.mnemonic.toList from h]
      exact List.mem_map_of_mem hc
    have halpha := isAlpha_of_isUpper_toUpper (isUpper_of_mem_mnemonic o _ hmem)
    simp [isWordChar, isNameStart, halpha]

/-! ### Quoted texts -/

/-- Neither end of the text is blank. -/
def Tight (text : List Char) : Prop :=
  (∀ c, text.head? = some c → isBlank c = false) ∧ ∀ c, text.getLast? = some c → isBlank c = false

/-- A comment begins only behind the text. -/
def Sealed (text : List Char) : Prop :=
  ∀ rest, stripComment.go false false (text ++ rest) = text ++ stripComment.go false false rest

/-- Before a colon there is a quote. -/
def Guarded (text : List Char) : Prop :=
  ∀ front rest, text = front ++ ':' :: rest → '"' ∈ front

theorem tight_nil : Tight [] :=
  ⟨nofun, nofun⟩

theorem IsWord.tight (h : IsWord text) : Tight text :=
  ⟨fun c hc => isBlank_of_isWordChar (h.chars c (List.mem_of_head? hc)),
    fun c hc => isBlank_of_isWordChar (h.chars c (List.mem_of_getLast? hc))⟩

theorem tight_write (chars : List Char) : Tight (Quoted.write chars) := by
  refine ⟨fun c hc => ?_, fun c hc => ?_⟩
  · cases hc
    decide
  · rw [Quoted.write, List.getLast?_concat] at hc
    cases hc
    decide

theorem Tight.append {xs ys : List Char} (hx : Tight xs) (hy : Tight ys) (hxne : xs ≠ [])
    (hyne : ys ≠ []) (gap : List Char) : Tight (xs ++ gap ++ ys) := by
  refine ⟨fun c hc => hx.1 c ?_, fun c hc => hy.2 c ?_⟩
  · obtain ⟨d, xs, rfl⟩ := List.exists_cons_of_ne_nil hxne
    exact hc
  · rwa [List.getLast?_append, List.getLast?_eq_some_getLast hyne, Option.some_or,
      ← List.getLast?_eq_some_getLast hyne] at hc

theorem sealed_append {xs ys : List Char} (hx : Sealed xs) (hy : Sealed ys) :
    Sealed (xs ++ ys) := fun rest => by
  rw [List.append_assoc, hx, hy, List.append_assoc]

theorem Unmarked.sealed (h : Unmarked text) : Sealed text := by
  intro rest
  induction text with
  | nil => rfl
  | cons c text ih =>
    obtain ⟨hc, htext⟩ := List.forall_mem_cons.1 h
    simp only [isMark, Bool.or_eq_false_iff, beq_eq_false_iff_ne] at hc
    obtain ⟨⟨⟨-, hquote⟩, hsemicolon⟩, -⟩ := hc
    simp [stripComment.go, hquote, hsemicolon, ih htext]

/-- Inside of quotes every quote has a backslash in front, and every backslash another one. -/
theorem go_escape (chars rest : List Char) :
    stripComment.go true false (Quoted.escape chars ++ rest) =
      Quoted.escape chars ++ stripComment.go true false rest := by
  fun_induction Quoted.escape chars with
  | case1 => rfl
  | case2 chars ih => simp [stripComment.go, ih]
  | case3 chars ih => simp [stripComment.go, ih]
  | case4 chars ih => simp [stripComment.go, ih]
  | case5 c chars hback hquote hfeed ih =>
    have hb : c ≠ '\\' := fun h => hback h
    have hq : c ≠ '"' := fun h => hquote h
    simp [stripComment.go, hb, hq, ih]

theorem sealed_write (chars : List Char) : Sealed (Quoted.write chars) := by
  intro rest
  have hinside := go_escape chars ('"' :: rest)
  simp only [Quoted.write, List.cons_append, List.append_assoc, List.nil_append]
  simp [stripComment.go, hinside]

theorem not_mem_escape (chars : List Char) : '\n' ∉ Quoted.escape chars := by
  fun_induction Quoted.escape chars with
  | case1 => simp
  | case2 chars ih => simp [ih]
  | case3 chars ih => simp [ih]
  | case4 chars ih => simp [ih]
  | case5 c chars hback hquote hfeed ih =>
    have hf : c ≠ '\n' := fun h => hfeed h
    simp [ih, hf.symm]

theorem not_mem_write (chars : List Char) : '\n' ∉ Quoted.write chars := by
  simp [Quoted.write, not_mem_escape]

theorem Unmarked.guarded (h : Unmarked text) : Guarded text := by
  rintro front rest rfl
  exact absurd (List.mem_append_right _ List.mem_cons_self) (h.not_mem (c := ':') rfl)

theorem guarded_nil : Guarded [] := by
  intro front rest heq
  cases front <;> cases heq

theorem guarded_write (chars : List Char) : Guarded (Quoted.write chars) := by
  intro front rest heq
  cases front with
  | nil => cases heq
  | cons c front =>
    obtain ⟨rfl, -⟩ := List.cons.inj heq
    exact List.mem_cons_self

theorem Guarded.behind {front : List Char} (h : Guarded text) (hfront : Unmarked front) :
    Guarded (front ++ text) := by
  intro head rest heq
  have hcolon : ∀ tail, front ≠ head ++ ':' :: tail := by
    rintro tail rfl
    exact hfront.not_mem (c := ':') rfl (List.mem_append_right _ List.mem_cons_self)
  rcases List.append_eq_append_iff.1 heq with ⟨more, rfl, hmore⟩ | ⟨more, rfl, hmore⟩
  · exact List.mem_append_right _ (h more rest hmore)
  · cases more with
    | nil => exact absurd (h [] rest hmore.symm) List.not_mem_nil
    | cons c more =>
      cases hmore
      exact absurd rfl (hcolon more)

/-! ### Pieces -/

/-- Text that the reader takes out of its line as it stands. -/
structure IsPiece (text : List Char) : Prop where
  ne_nil : text ≠ []
  tight : Tight text
  closed : Sealed text
  feedless : '\n' ∉ text

theorem IsPiece.append {xs gap ys : List Char} (hx : IsPiece xs) (hgap : IsGap gap)
    (hy : IsPiece ys) : IsPiece (xs ++ gap ++ ys) where
  ne_nil := List.append_ne_nil_of_right_ne_nil _ hy.ne_nil
  tight := hx.tight.append hy.tight hx.ne_nil hy.ne_nil gap
  closed := sealed_append (sealed_append hx.closed hgap.unmarked.sealed) hy.closed
  feedless := by
    have hgap : '\n' ∉ gap := hgap.unmarked.not_mem rfl
    simp [hx.feedless, hgap, hy.feedless]

theorem IsWord.isPiece (h : IsWord text) : IsPiece text where
  ne_nil := h.ne_nil
  tight := h.tight
  closed := h.unmarked.sealed
  feedless := h.unmarked.not_mem rfl

theorem isPiece_write (chars : List Char) : IsPiece (Quoted.write chars) where
  ne_nil := List.cons_ne_nil _ _
  tight := tight_write chars
  closed := sealed_write chars
  feedless := not_mem_write chars

theorem isPiece_colon : IsPiece [':'] where
  ne_nil := List.cons_ne_nil _ _
  tight := ⟨fun _ hc => by cases hc; decide, fun _ hc => by cases hc; decide⟩
  closed := fun _ => rfl
  feedless := by decide

theorem IsName.isWord (h : IsName text) : IsWord text :=
  isWord_of_isLabel h.isLabel

theorem SpellsTarget.isWord {target : Target} (h : SpellsTarget target text) : IsWord text := by
  cases h with
  | label hname => exact hname.isWord
  | offset hnumber => exact hnumber.isWord

theorem SpellsLabel.isPiece {name : String} (h : SpellsLabel name text) : IsPiece text := by
  obtain ⟨hname, hgap⟩ := h
  exact hname.isWord.isPiece.append hgap isPiece_colon

variable {i : Instruction}

theorem SpellsOperands.isPiece (h : SpellsOperands i text) : IsPiece text := by
  cases h with
  | push hnumber | pushLong hnumber => exact hnumber.isWord.isPiece
  | spawn hnumber hgap hne => exact hnumber.isWord.isPiece.append hgap (isPiece_write _)
  | bindAt htarget | jump htarget => exact htarget.isWord.isPiece
  | pushText chars => exact isPiece_write chars

theorem SpellsOperands.guarded (h : SpellsOperands i text) : Guarded text := by
  cases h with
  | push hnumber | pushLong hnumber => exact hnumber.isWord.unmarked.guarded
  | spawn hnumber hgap hne =>
    exact (guarded_write _).behind (hnumber.isWord.unmarked.append hgap.unmarked)
  | bindAt htarget | jump htarget => exact htarget.isWord.unmarked.guarded
  | pushText chars => exact guarded_write chars

theorem SpellsInstruction.isPiece (h : SpellsInstruction i text) : IsPiece text := by
  cases h with
  | plain hopcode hword => exact hword.isWord.isPiece
  | operands hword hgap hne hoperands => exact hword.isWord.isPiece.append hgap hoperands.isPiece

theorem SpellsInstruction.guarded (h : SpellsInstruction i text) : Guarded text := by
  cases h with
  | plain hopcode hword => exact hword.isWord.unmarked.guarded
  | operands hword hgap hne hoperands =>
    exact hoperands.guarded.behind (hword.isWord.unmarked.append hgap.unmarked)

variable {items : Listing}

theorem SpellsStatement.eq_nil_or_isPiece (h : SpellsStatement items text) :
    text = [] ∨ IsPiece text := by
  cases h with
  | blank => exact .inl rfl
  | label hlabel => exact .inr hlabel.isPiece
  | instruction hinstruction => exact .inr hinstruction.isPiece
  | labelled hlabel hgap hinstruction =>
    exact .inr (hlabel.isPiece.append hgap hinstruction.isPiece)

theorem IsComment.feedless (h : IsComment text) : '\n' ∉ text := by
  cases h with
  | none => simp
  | some hnote => simp [hnote]

theorem SpellsLine.feedless (h : SpellsLine items text) : '\n' ∉ text := by
  obtain ⟨hindent, hstatement, htrail, hcomment⟩ := h
  have hindent := hindent.unmarked.not_mem (c := '\n') rfl
  have htrail := htrail.unmarked.not_mem (c := '\n') rfl
  obtain rfl | hpiece := hstatement.eq_nil_or_isPiece
  · simp [hindent, htrail, hcomment.feedless]
  · simp [hindent, hpiece.feedless, htrail, hcomment.feedless]

end BytecodeKernel.Assembly
