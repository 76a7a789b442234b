import BytecodeKernel.Proofs.Assembly.Spelling
import Mathlib.Data.List.TakeWhile
/-!
The reader takes every spelling of a listing for that listing. Comments, labels, mnemonics and
operands are told apart one after the other on the same line, so what stands between quotes must
pass each of these by.
-/

namespace BytecodeKernel

/-! ### Numbers -/

namespace Numeral

variable {digits : List Char} {c : Char}

theorem toNat_of_isDigit (h : c.isDigit = true) : 48 ≤ c.toNat ∧ c.toNat ≤ 57 := by
  simp only [Char.isDigit, Bool.and_eq_true, decide_eq_true_eq, ge_iff_le,
    UInt32.le_iff_toNat_le] at h
  exact h

theorem digit?_of_isDigit (h : c.isDigit = true) : digit? 10 c = some (c.toNat - '0'.toNat) := by
  have hrange := toNat_of_isDigit h
  have hvalue : Hex.value? c = some (c.toNat - '0'.toNat) := by
    refine if_pos ?_
    rw [Char.le_def, Char.le_def, UInt32.le_iff_toNat_le, UInt32.le_iff_toNat_le]
    exact hrange
  have hlt : c.toNat - 48 < 10 := by omega
  simp [digit?, hvalue, hlt]

theorem foldlM_digits (h : ∀ c ∈ digits, c.isDigit = true) (n : Nat) :
    digits.foldlM (fun n c => (digit? 10 c).map (n * 10 + ·)) n =
      some (Nat.ofDigitChars 10 digits n) := by
  induction digits generalizing n with
  | nil => rfl
  | cons c digits ih =>
    obtain ⟨hc, hdigits⟩ := List.forall_mem_cons.1 h
    rw [List.foldlM_cons, digit?_of_isDigit hc, Nat.ofDigitChars_cons, Nat.mul_comm 10 n]
    exact ih hdigits _

theorem digits?_of_isDigit (hne : digits ≠ []) (h : ∀ c ∈ digits, c.isDigit = true) :
    digits? 10 digits = some (Nat.ofDigitChars 10 digits 0) := by
  rw [digits?, List.isEmpty_eq_false_iff.2 hne]
  exact foldlM_digits h 0

theorem signed?_of_unsigned {text : List Char} (h : ∀ c ∈ text, c ≠ '-' ∧ c ≠ '+') (base : Nat) :
    signed? base text = (digits? base text).map Int.ofNat := by
  rw [signed?]
  · rintro rest rfl
    exact (h '-' List.mem_cons_self).1 rfl
  · rintro rest rfl
    exact (h '+' List.mem_cons_self).2 rfl

/-- Digits have no sign and no other base. -/
theorem magnitude?_of_isDigit (hne : digits ≠ []) (h : ∀ c ∈ digits, c.isDigit = true) :
    magnitude? digits = some (Nat.ofDigitChars 10 digits 0 : Int) := by
  have hsign : ∀ c ∈ digits, c ≠ '-' ∧ c ≠ '+' ∧ c ≠ 'x' ∧ c ≠ 'X' := by
    intro c hc
    have hdigit := h c hc
    refine ⟨?_, ?_, ?_, ?_⟩ <;> rintro rfl <;> exact absurd hdigit (by decide)
  have hsigned : signed? 10 digits = some (Nat.ofDigitChars 10 digits 0 : Int) := by
    rw [signed?_of_unsigned fun c hc => ⟨(hsign c hc).1, (hsign c hc).2.1⟩,
      digits?_of_isDigit hne h]
    rfl
  rw [magnitude?, hsigned]
  · rintro text rfl
    exact (hsign 'x' (by simp)).2.2.1 rfl
  · rintro text rfl
    exact (hsign 'X' (by simp)).2.2.2 rfl

theorem value?_of_decimal {text : List Char} {v : Int} (h : Assembly.Decimal text v) :
    value? text = some v := by
  have hplain {digits : List Char} (hdigits : ∀ c ∈ digits, c.isDigit = true) :
      digits.filter (· != '_') = digits := by
    refine List.filter_eq_self.2 fun c hc => bne_iff_ne.2 ?_
    rintro rfl
    exact absurd (hdigits '_' hc) (by decide)
  cases h with
  | plain hne hdigits =>
    rw [value?, hplain hdigits]
    split
    · exact absurd (hdigits '-' List.mem_cons_self) (by decide)
    · exact magnitude?_of_isDigit hne hdigits
  | minus hne hdigits =>
    rename_i digits
    rw [value?, List.filter_cons_of_pos (by decide), hplain hdigits]
    simp only [magnitude?_of_isDigit hne hdigits, Option.map_some]

theorem read?_of_decimal {text : List Char} {v : Int} (h : Assembly.Decimal text v)
    (hlo : -0x8000000000000000 ≤ v) (hhi : v < 0x8000000000000000) : read? text = some v := by
  rw [read?, value?_of_decimal h]
  simp [hlo, hhi]

end Numeral

namespace Assembly

/-! ### Blanks and separators -/

variable {text gap : List Char} {c : Char}

theorem dropWhile_isBlank (h : ∀ c, text.head? = some c → isBlank c = false) :
    text.dropWhile isBlank = text := by
  cases text with
  | nil => rfl
  | cons c text => exact List.dropWhile_cons_of_neg (by simp [h c rfl])

theorem trimBlanks_around {left right : List Char} (hleft : IsGap left) (hright : IsGap right)
    (h : Tight text) : trimBlanks (left ++ text ++ right) = text := by
  have hfront : ((left ++ text ++ right).dropWhile isBlank).reverse.dropWhile isBlank =
      text.reverse := by
    by_cases hne : text = []
    · subst hne
      have hall : ∀ c ∈ left ++ [] ++ right, isBlank c = true := by
        simpa using fun c hc => hc.elim (hleft.blank c) (hright.blank c)
      rw [List.dropWhile_eq_nil_iff.2 hall]
      rfl
    · obtain ⟨c, rest, rfl⟩ := List.exists_cons_of_ne_nil hne
      have hhead : (c :: rest ++ right).dropWhile isBlank = c :: rest ++ right :=
        dropWhile_isBlank fun d hd => h.1 d hd
      rw [List.append_assoc, List.dropWhile_append_of_pos hleft.blank, hhead, List.reverse_append,
        List.dropWhile_append_of_pos fun d hd => hright.blank d (List.mem_reverse.1 hd),
        dropWhile_isBlank fun d hd => h.2 d (by rwa [List.head?_reverse] at hd)]
  rw [trimBlanks, hfront, List.reverse_reverse]

theorem mem_dropWhile (hmem : c ∈ text) (hc : isBlank c = false) :
    c ∈ text.dropWhile isBlank := by
  rw [← List.takeWhile_append_dropWhile (p := isBlank) (l := text), List.mem_append] at hmem
  refine hmem.resolve_left fun hfront => ?_
  rw [List.mem_takeWhile_imp hfront] at hc
  contradiction

theorem mem_trimBlanks (hmem : c ∈ text) (hc : isBlank c = false) : c ∈ trimBlanks text := by
  rw [trimBlanks, List.mem_reverse]
  exact mem_dropWhile (List.mem_reverse.2 (mem_dropWhile hmem hc)) hc

variable {p : Char → Bool} {before : List Char}

theorem splitAtFirst?_append (hbefore : ∀ d ∈ before, p d = false) (hc : p c = true)
    (after : List Char) : splitAtFirst? p (before ++ c :: after) = some (before, after) := by
  have hnot : ∀ d ∈ before, (!p d) = true := fun d hd => by simp [hbefore d hd]
  rw [splitAtFirst?, List.dropWhile_append_of_pos hnot, List.takeWhile_append_of_pos hnot]
  simp [hc]

theorem splitAtFirst?_eq_none (h : ∀ d ∈ text, p d = false) : splitAtFirst? p text = none := by
  have hnot : ∀ d ∈ text, (!p d) = true := fun d hd => by simp [h d hd]
  rw [splitAtFirst?, List.dropWhile_eq_nil_iff.2 hnot]

/-- A word ends at the first blank. -/
theorem splitAtFirst?_gap {word : List Char} (hword : IsWord word) (hgap : IsGap gap)
    (hne : gap ≠ []) (h : Tight text) :
    ∃ rest, splitAtFirst? isBlank (word ++ gap ++ text) = some (word, rest) ∧
      trimBlanks rest = text := by
  obtain ⟨c, more, rfl⟩ := List.exists_cons_of_ne_nil hne
  obtain ⟨hc, hmore⟩ := List.forall_mem_cons.1 hgap
  have hblank : isBlank c = true := hgap.blank c List.mem_cons_self
  refine ⟨more ++ text, ?_, ?_⟩
  · rw [List.append_assoc]
    exact splitAtFirst?_append (fun d hd => isBlank_of_isWordChar (hword.chars d hd)) hblank _
  · have htrim := trimBlanks_around hmore isGap_nil h
    rwa [List.append_nil] at htrim

/-! ### Instructions -/

variable {line : Nat} {o : Opcode} {i : Instruction}

theorem ofMnemonic?_of_isMnemonic {word : List Char} (h : IsMnemonic o word) :
    Opcode.ofMnemonic? word = some o := by
  have hsame : word.map Char.toUpper = o.mnemonic.toList.map Char.toUpper :=
    Eq.trans h (isMnemonic_mnemonic o).symm
  rw [Opcode.ofMnemonic?, hsame]
  exact Opcode.ofMnemonic?_mnemonic o

theorem numberOperand_of_decimal {v : Int} (h : Decimal text v) (hlo : -0x8000000000000000 ≤ v)
    (hhi : v < 0x8000000000000000) : numberOperand line o text = .ok v := by
  rw [numberOperand, Numeral.read?_of_decimal h hlo hhi]

theorem boundedOperand_of_decimal {v lo hi : Int} (h : Decimal text v)
    (hlo : -0x8000000000000000 ≤ v) (hhi : v < 0x8000000000000000) (hbounds : lo ≤ v ∧ v < hi) :
    boundedOperand line o lo hi text = .ok v := by
  rw [boundedOperand, numberOperand_of_decimal h hlo hhi]
  exact if_pos hbounds

theorem targetOperand_of_spells {target : Target} (h : SpellsTarget target text) :
    targetOperand line o text = .ok target := by
  have hne : text.isEmpty = false := List.isEmpty_eq_false_iff.2 h.isWord.ne_nil
  cases h with
  | label hname => simp [targetOperand, hne, hname.read?, hname.isLabel]
  | offset hnumber =>
    rename_i n
    have hn : n.toNat < addressLimit := n.toNat_lt
    have hlimit : addressLimit = 0x100000000 := rfl
    have hread := Numeral.read?_of_decimal hnumber (by omega) (by omega)
    have hbounds : (0 : Int) ≤ n.toNat ∧ (n.toNat : Int) < addressLimit := by omega
    simp only [targetOperand, hne, hread, if_pos hbounds, Int.toNat_natCast, UInt32.ofNat_toNat]
    rfl

theorem quotedOperand_write (chars shown : List Char) :
    quotedOperand line (Quoted.write chars) shown = .ok (Utf8.encode chars) := by
  rw [quotedOperand, Quoted.read?_write]

theorem readInstruction_of_spells (h : SpellsOperands i text) :
    readInstruction line i.opcode text = .ok i := by
  cases h with
  | push hnumber =>
    rename_i v
    have hlo := v.le_toInt
    have hhi := v.toInt_lt
    have hread : boundedOperand line .push (-0x80000000) 0x100000000 text = .ok v.toInt :=
      boundedOperand_of_decimal hnumber (by omega) (by omega) (by omega)
    simp [readInstruction, Instruction.opcode, hread, bind, Except.bind, pure, Except.pure]
  | pushLong hnumber =>
    rename_i v
    have hread : numberOperand line .pushLong text = .ok v.toInt :=
      numberOperand_of_decimal hnumber v.le_toInt v.toInt_lt
    simp [readInstruction, Instruction.opcode, hread, bind, Except.bind, pure, Except.pure]
  | spawn hnumber hgap hne =>
    rename_i v number gap chars
    have hlo := v.le_toInt
    have hhi := v.toInt_lt
    have hread : boundedOperand line .spawn (-0x80000000) 0x80000000 number = .ok v.toInt :=
      boundedOperand_of_decimal hnumber (by omega) (by omega) (by omega)
    obtain ⟨rest, hsplit, htrim⟩ :=
      splitAtFirst?_gap hnumber.isWord hgap hne (tight_write chars)
    simp only [readInstruction, Instruction.opcode, hsplit, hread, htrim, quotedOperand_write,
      Int32.ofInt_toInt, bind, Except.bind, pure, Except.pure]
  | bindAt htarget | jump htarget =>
    simp [readInstruction, Instruction.opcode, targetOperand_of_spells htarget, bind, Except.bind,
      pure, Except.pure]
  | pushText chars =>
    have hne : (Quoted.write chars).isEmpty = false := rfl
    simp [readInstruction, Instruction.opcode, hne, quotedOperand_write, bind, Except.bind, pure,
      Except.pure]

theorem readInstruction_plain (h : o.operandBytes = 0) :
    readInstruction line o [] = .ok (.plain o) := by
  cases o <;> first | contradiction | rfl

/-! ### Lines -/

theorem go_of_isComment (h : IsComment text) : stripComment.go false false text = [] := by
  cases h with
  | none => rfl
  | some _ => simp [stripComment.go]

theorem trimBlanks_stripComment {indent statement trail comment : List Char}
    (hindent : IsGap indent) (htight : Tight statement) (hsealed : Sealed statement)
    (htrail : IsGap trail) (hcomment : IsComment comment) :
    trimBlanks (stripComment (indent ++ statement ++ trail ++ comment)) = statement := by
  have hclosed : Sealed (indent ++ statement ++ trail) :=
    sealed_append (sealed_append hindent.unmarked.sealed hsealed) htrail.unmarked.sealed
  rw [stripComment, hclosed, go_of_isComment hcomment, List.append_nil,
    trimBlanks_around hindent htrail htight]

theorem SpellsStatement.tight_and_sealed {items : Listing} {statement : List Char}
    (h : SpellsStatement items statement) : Tight statement ∧ Sealed statement := by
  obtain rfl | hpiece := h.eq_nil_or_isPiece
  · exact ⟨tight_nil, fun _ => rfl⟩
  · exact ⟨hpiece.tight, hpiece.closed⟩

variable {source : List Char} {number : Nat}

theorem splitLabel_of_guarded (h : Guarded text)
    (hsource : trimBlanks (stripComment source) = text) : splitLabel source = (none, text) := by
  simp only [splitLabel, hsource]
  split
  · rename_i head rest hsplit
    obtain ⟨c, hc, rfl, -⟩ := splitAtFirst?_eq_some hsplit
    obtain rfl : c = ':' := by simpa using hc
    -- a quote is no part of a label
    have hquote : '"' ∈ trimBlanks head := mem_trimBlanks (h head rest rfl) (by decide)
    have hlabel : isLabel (trimBlanks head) = false := by
      refine Bool.eq_false_iff.2 fun hlabel => ?_
      exact absurd ((isWord_of_isLabel hlabel).chars _ hquote) (by decide)
    rw [hlabel]
    rfl
  · rfl

theorem splitLabel_of_name {name : List Char} (hname : IsName name) (hgap : IsGap gap)
    (rest : List Char) (hsource : trimBlanks (stripComment source) = name ++ gap ++ ':' :: rest) :
    splitLabel source = (some name, trimBlanks rest) := by
  have hunmarked := hname.isWord.unmarked.append hgap.unmarked
  have hsplit : splitAtFirst? (· == ':') (name ++ gap ++ ':' :: rest) = some (name ++ gap, rest) :=
    splitAtFirst?_append (fun d hd => by
      refine beq_eq_false_iff_ne.2 ?_
      rintro rfl
      exact hunmarked.not_mem rfl hd) rfl rest
  have htrim : trimBlanks (name ++ gap) = name :=
    trimBlanks_around isGap_nil hgap hname.isWord.tight
  simp only [splitLabel, hsource, hsplit, htrim, hname.isLabel, if_true]

theorem readLine_of_instruction {label? : Option (List Char)}
    (hsplit : splitLabel source = (label?, text)) (h : SpellsInstruction i text) :
    readLine number source =
      .ok (label?.toList.map (fun name => Item.label (String.ofList name)) ++
        [.instruction i]) := by
  have hne : text.isEmpty = false := List.isEmpty_eq_false_iff.2 h.isPiece.ne_nil
  cases h with
  | plain hopcode hword =>
    have hblank : splitAtFirst? isBlank text = none :=
      splitAtFirst?_eq_none fun d hd => isBlank_of_isWordChar (hword.isWord.chars d hd)
    simp [readLine, hsplit, hne, hblank, ofMnemonic?_of_isMnemonic hword,
      show trimBlanks [] = [] from rfl, readInstruction_plain hopcode, bind, Except.bind, pure,
      Except.pure]
  | operands hword hgap hgapne hoperands =>
    obtain ⟨rest, hblank, htrim⟩ :=
      splitAtFirst?_gap hword.isWord hgap hgapne hoperands.isPiece.tight
    simp only [readLine, hsplit, hne, hblank, Option.getD_some, ofMnemonic?_of_isMnemonic hword,
      htrim, readInstruction_of_spells hoperands, bind, Except.bind, pure, Except.pure]
    rfl

theorem readLine_of_blank {label? : Option (List Char)}
    (hsplit : splitLabel source = (label?, [])) :
    readLine number source =
      .ok (label?.toList.map fun name => Item.label (String.ofList name)) := by
  simp [readLine, hsplit, pure, Except.pure]

theorem readLine_of_spells {items : Listing} (h : SpellsLine items source) :
    readLine number source = .ok items := by
  obtain ⟨hindent, hstatement, htrail, hcomment⟩ := h
  obtain ⟨htight, hsealed⟩ := hstatement.tight_and_sealed
  have hsource := trimBlanks_stripComment hindent htight hsealed htrail hcomment
  cases hstatement with
  | blank => exact readLine_of_blank (splitLabel_of_guarded guarded_nil hsource)
  | label hlabel =>
    obtain ⟨hname, hgap⟩ := hlabel
    exact readLine_of_blank (splitLabel_of_name hname hgap [] hsource)
  | instruction hinstruction =>
    exact readLine_of_instruction (splitLabel_of_guarded hinstruction.guarded hsource) hinstruction
  | labelled hlabel hgap' hinstruction =>
    rename_i gap' text i
    obtain ⟨hname, hgap⟩ := hlabel
    have hsplit := splitLabel_of_name hname hgap (gap' ++ text) (hsource.trans (by simp))
    have htrim := trimBlanks_around hgap' isGap_nil hinstruction.isPiece.tight
    rw [List.append_nil] at htrim
    rw [htrim] at hsplit
    exact readLine_of_instruction hsplit hinstruction

/-! ### Texts -/

theorem lines_of_feedless (h : '\n' ∉ text) : lines text = [text] := by
  induction text with
  | nil => rfl
  | cons c text ih =>
    obtain ⟨hc, htext⟩ := not_or.1 (mt List.mem_cons.2 h)
    have hrest : lines text = [text] := ih htext
    rw [lines, List.foldr_cons, ← lines, hrest, if_neg (Ne.symm hc)]

theorem lines_append (h : '\n' ∉ text) (rest : List Char) :
    lines (text ++ '\n' :: rest) = text :: lines rest := by
  induction text with
  | nil => rfl
  | cons c text ih =>
    obtain ⟨hc, htext⟩ := not_or.1 (mt List.mem_cons.2 h)
    have hrest : lines (text ++ '\n' :: rest) = text :: lines rest := ih htext
    rw [List.cons_append, lines, List.foldr_cons, ← lines, hrest, if_neg (Ne.symm hc)]

theorem mapM_readLine {l : Listing} (h : Spells l text) (first : Nat) :
    ∃ rows, ((lines text).zipIdx first).mapM (fun (line, number) => readLine number line) =
      .ok rows ∧ rows.flatten = l := by
  induction h generalizing first with
  | @last items line hline =>
    refine ⟨[items], ?_, List.flatten_singleton⟩
    rw [lines_of_feedless hline.feedless, List.zipIdx_singleton, List.mapM_cons, List.mapM_nil]
    simp only [readLine_of_spells hline, bind, Except.bind, pure, Except.pure]
  | @next items l line rest hline _ ih =>
    obtain ⟨rows, hrows, rfl⟩ := ih (first + 1)
    refine ⟨items :: rows, ?_, List.flatten_cons⟩
    rw [lines_append hline.feedless, List.zipIdx_cons, List.mapM_cons, hrows]
    simp only [readLine_of_spells hline, bind, Except.bind, pure, Except.pure]

theorem read_of_spells {l : Listing} {text : String} (h : Spells l text.toList) :
    read text = .ok l := by
  obtain ⟨rows, hrows, rfl⟩ := mapM_readLine h 1
  rw [read, hrows]
  rfl

/-- A text spells one listing only. -/
theorem Spells.unique {l l' : Listing} {text : List Char} (h : Spells l text)
    (h' : Spells l' text) : l = l' := by
  have hread : read (String.ofList text) = .ok l := read_of_spells (by rwa [String.toList_ofList])
  have hread' : read (String.ofList text) = .ok l' := read_of_spells (by rwa [String.toList_ofList])
  exact Except.ok.inj (hread.symm.trans hread')

/-- The image of a text is the image of the listing that it spells, in whatever way. If that listing
has none, the text has none for the same reason. -/
theorem assemble_of_spells {l : Listing} {text : String} (h : Spells l text.toList) :
    assemble text = l.build.mapError .listing := by
  rw [assemble, read_of_spells h]
  cases hbuild : l.build with
  | ok image => simp [hbuild, bind, Except.bind, pure, Except.pure, Except.mapError]
  | error e =>
    simp [hbuild, bind, Except.bind, Except.mapError, throw, throwThe, MonadExceptOf.throw]

/-- A loop behind a child whose name has every mark in it. -/
def memo : Listing :=
  [.label "_go", .instruction (.push (-42)),
    .instruction (.spawn 7 (Utf8.encode ['a', ';', ':', '"', '\\'])), .label "end",
    .instruction (.jump (.label "_go")), .instruction (.pushText (Utf8.encode ['\n', ';'])),
    .instruction (.plain .halt)]

def memoText : String :=
  "; here \"a: opens\n_go :\tpUsH -042;\n\n\tProc 7\t\"a;:\\\"\\\\\" ; d \" e\n" ++
    "end: jump _go\nAPUSH \"\\n;\"  \nhalt"

def memoImage : List UInt8 :=
  [0, 255, 255, 255, 214, 2, 0, 0, 0, 7, 0, 5, 97, 59, 58, 34, 92, 22, 0, 0, 0, 0, 28, 0, 2, 10, 59,
    127]

theorem assemble_memo : Spells memo memoText.toList ∧ assemble memoText = .ok memoImage := by
  have hgo : IsName "_go".toList := ⟨by decide, by decide⟩
  have hend : IsName "end".toList := ⟨by decide, by decide⟩
  have htab : IsGap ['\t'] := by decide
  have hpush : SpellsInstruction (.push (-42)) ("pUsH".toList ++ [' '] ++ '-' :: "042".toList) :=
    .operands rfl isGap_space (by decide) (.push (.minus (by decide) (List.all_eq_true.1 rfl)))
  have hspawn : SpellsInstruction (.spawn 7 (Utf8.encode ['a', ';', ':', '"', '\\']))
      ("Proc".toList ++ [' '] ++ ("7".toList ++ ['\t'] ++
        Quoted.write ['a', ';', ':', '"', '\\'])) :=
    .operands rfl isGap_space (by decide)
      (.spawn (.plain (by decide) (List.all_eq_true.1 rfl)) htab (by decide))
  have hjump : SpellsInstruction (.jump (.label "_go")) ("jump".toList ++ [' '] ++ "_go".toList) :=
    .operands rfl isGap_space (by decide) (.jump (.label hgo))
  have hprint : SpellsInstruction (.pushText (Utf8.encode ['\n', ';']))
      ("APUSH".toList ++ [' '] ++ Quoted.write ['\n', ';']) :=
    .operands rfl isGap_space (by decide) (.pushText _)
  have hhalt : SpellsInstruction (.plain .halt) "halt".toList := .plain rfl rfl
  have hspells : Spells memo memoText.toList :=
    .next (.intro isGap_nil .blank isGap_nil (.some (by decide : '\n' ∉ " here \"a: opens".toList)))
    <| .next (.intro isGap_nil (.labelled (.intro hgo isGap_space) htab hpush) isGap_nil
        (.some List.not_mem_nil))
    <| .next (.intro isGap_nil .blank isGap_nil .none)
    <| .next (.intro htab (.instruction hspawn) isGap_space
        (.some (by decide : '\n' ∉ " d \" e".toList)))
    <| .next (.intro isGap_nil (.labelled (.intro hend isGap_nil) isGap_space hjump) isGap_nil
        .none)
    <| .next (.intro isGap_nil (.instruction hprint) (by decide : IsGap [' ', ' ']) .none)
    <| .last (.intro isGap_nil (.instruction hhalt) isGap_nil .none)
  have hbuild : memo.build = .ok memoImage := by rfl
  have himage := assemble_of_spells hspells
  rw [hbuild] at himage
  exact ⟨hspells, himage⟩

end Assembly

end BytecodeKernel
