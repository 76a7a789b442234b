import BytecodeKernel.Program.Builder
/-!
A program that is written with gaps, which are filled when it is built, has the image of its
listing, in which every target is resolved where it stands. A gap lies behind all that was written
before it, so what is written later changes nothing about how it is filled. If the build fails, both
ways fail for the same reason.
-/

namespace BytecodeKernel

variable {code more bytes : List UInt8} {offset : Nat}

theorem length_patch (h : offset + bytes.length ≤ code.length) :
    (patch code offset bytes).length = code.length := by
  simp only [patch, List.length_append, List.length_take, List.length_drop]
  omega

/-- What follows stays. -/
theorem patch_append (h : offset + bytes.length ≤ code.length) :
    patch (code ++ more) offset bytes = patch code offset bytes ++ more := by
  simp only [patch, List.take_append_of_le_length (Nat.le_of_add_right_le h),
    List.drop_append_of_le_length h, List.append_assoc]

/-- A gap at the end. -/
theorem patch_length (h : more.length = bytes.length) :
    patch (code ++ more) code.length bytes = code ++ bytes := by
  simp only [patch, List.take_left, ← h, ← List.length_append, List.drop_length, List.append_nil]

namespace Builder

variable {b : Builder} {labels : Std.HashMap String Nat}

/-! ### Gaps -/

/-- The gaps lie in the code. -/
def Fits (fixups : List (Nat × String)) (code : List UInt8) : Prop :=
  ∀ f ∈ fixups, f.1 + 4 ≤ code.length

theorem Fits.mono {fixups : List (Nat × String)} {code longer : List UInt8} (h : Fits fixups code)
    (hle : code.length ≤ longer.length) : Fits fixups longer :=
  fun f hf => Nat.le_trans (h f hf) hle

theorem length_resolve {missing : Nat × String} {filled : List UInt8}
    (h : resolve labels code missing = .ok filled) (hfits : missing.1 + 4 ≤ code.length) :
    filled.length = code.length := by
  unfold resolve at h
  split at h
  · cases h
    exact length_patch (by simpa using hfits)
  · contradiction

theorem resolve_append {missing : Nat × String} (hfits : missing.1 + 4 ≤ code.length) :
    resolve labels (code ++ more) missing =
      resolve labels code missing >>= fun filled => .ok (filled ++ more) := by
  simp only [resolve]
  split
  · rw [patch_append (by simpa using hfits)]
    rfl
  · rfl

/-- What is written later changes nothing about how the gaps are filled. -/
theorem foldlM_resolve_append {fixups : List (Nat × String)} (hfits : Fits fixups code) :
    fixups.foldlM (resolve labels) (code ++ more) =
      fixups.foldlM (resolve labels) code >>= fun filled => .ok (filled ++ more) := by
  induction fixups generalizing code with
  | nil => rfl
  | cons f rest ih =>
    rw [List.foldlM_cons, List.foldlM_cons, resolve_append (hfits f List.mem_cons_self)]
    cases hfilled : resolve labels code f with
    | error e => rfl
    | ok filled =>
      have hlength := length_resolve hfilled (hfits f List.mem_cons_self)
      have hrest : Fits rest code := fun g hg => hfits g (List.mem_cons_of_mem f hg)
      exact ih (hrest.mono (Nat.le_of_eq hlength.symm))

theorem length_foldlM_resolve {fixups : List (Nat × String)} (hfits : Fits fixups code)
    {filled : List UInt8} (h : fixups.foldlM (resolve labels) code = .ok filled) :
    filled.length = code.length := by
  induction fixups generalizing code with
  | nil =>
    cases h
    rfl
  | cons f rest ih =>
    rw [List.foldlM_cons] at h
    cases hfilled : resolve labels code f with
    | error e =>
      rw [hfilled] at h
      contradiction
    | ok first =>
      rw [hfilled] at h
      have hlength := length_resolve hfilled (hfits f List.mem_cons_self)
      have hrest : Fits rest code := fun g hg => hfits g (List.mem_cons_of_mem f hg)
      rw [ih (hrest.mono (Nat.le_of_eq hlength.symm)) h, hlength]

/-! ### Resolving in place -/

/-- One part of an image behind another. -/
def join (first second : Except ListingError (List UInt8)) : Except ListingError (List UInt8) := do
  return (← first) ++ (← second)

theorem join_ok (first second : List UInt8) :
    join (.ok first) (.ok second) = .ok (first ++ second) := rfl

theorem join_nil (first : Except ListingError (List UInt8)) : join first (.ok []) = first := by
  cases first with
  | error e => rfl
  | ok bytes => rw [join_ok, List.append_nil]

theorem join_assoc (first second third : Except ListingError (List UInt8)) :
    join (join first second) third = join first (join second third) := by
  cases first <;> cases second <;> cases third <;>
    simp [join, bind, Except.bind, pure, Except.pure]

/-- What is in the code of a builder once its gaps are filled. -/
structure Holds (labels : Std.HashMap String Nat) (b : Builder)
    (image : Except ListingError (List UInt8)) : Prop where
  fits : Fits b.fixups b.code
  resolved : b.resolved labels = image

variable {image : Except ListingError (List UInt8)} {table : List (String × Nat)}

theorem Holds.emit (h : b.Holds labels image) (f : Field) :
    (b.emit f).Holds labels (join image (.ok f.encode)) where
  fits := h.fits.mono (by simp [Builder.emit])
  resolved := by
    rw [← h.resolved]
    exact foldlM_resolve_append h.fits

theorem Holds.report (h : b.Holds labels image) (e : ListingError) :
    (b.report e).Holds labels image :=
  ⟨h.fits, h.resolved⟩

theorem Holds.label (h : b.Holds labels image) (name : String) :
    (b.label name).Holds labels image := by
  have hdefined : { b with labels := b.labels.insert name b.offset }.Holds labels image :=
    ⟨h.fits, h.resolved⟩
  rw [Builder.label]
  split
  · exact hdefined.report _
  · exact hdefined

theorem Holds.fixup (h : b.Holds labels image) (hlabels : ∀ name, labels[name]? = table.lookup name)
    (name : String) :
    (b.fixup name).Holds labels
      (join image ((Target.label name).resolve table >>= fun n => .ok (BigEndian.encode 4 n))) where
  fits f hmem := by
    simp only [Builder.fixup, Builder.emit, List.length_append, Field.encode,
      BigEndian.length_encode] at hmem ⊢
    rcases List.mem_append.1 hmem with hf | hf
    · exact Nat.le_trans (h.fits f hf) (Nat.le_add_right _ _)
    · obtain rfl := List.mem_singleton.1 hf
      exact Nat.le_refl _
  resolved := by
    rw [← h.resolved]
    simp only [Builder.resolved, Builder.fixup, Builder.emit, List.foldlM_append,
      foldlM_resolve_append h.fits]
    cases hdone : b.fixups.foldlM (resolve labels) b.code with
    | error e => rfl
    | ok done =>
      -- The gap is the last thing that was written.
      have hlength := length_foldlM_resolve h.fits hdone
      simp only [join, bind, Except.bind, List.foldlM_cons, List.foldlM_nil, resolve,
        Target.resolve, hlabels name, ← hlength]
      cases table.lookup name with
      | none => rfl
      | some n => simp [patch_length, Field.encode, pure, Except.pure]

theorem Holds.literal (h : b.Holds labels image) (bytes : List UInt8) :
    (b.literal bytes).Holds labels (join image (.ok (Field.encodeAll (literalFields bytes)))) := by
  rw [Builder.literal, literalFields]
  split
  · have hemitted := (h.emit (.unsigned 2 bytes.length)).emit (.raw bytes)
    rw [join_assoc, join_ok] at hemitted
    simpa [Field.encodeAll] using hemitted
  · have hemitted := (h.report (.literalTooLong bytes.length)).emit (.unsigned 2 0)
    simpa [Field.encodeAll] using hemitted

theorem Holds.target (h : b.Holds labels image)
    (hlabels : ∀ name, labels[name]? = table.lookup name) (t : Target) :
    (b.target t).Holds labels
      (join image (t.resolve table >>= fun n => .ok (BigEndian.encode 4 n))) := by
  cases t with
  | label name => exact h.fixup hlabels name
  | offset n => exact h.emit (.unsigned 4 n.toNat)

theorem Holds.instruction (h : b.Holds labels image)
    (hlabels : ∀ name, labels[name]? = table.lookup name) (i : Instruction) :
    (b.instruction i).Holds labels (join image (i.encode table)) := by
  have hopcode := h.emit (.raw [i.opcode.code])
  cases i with
  | plain o => exact hopcode
  | push v =>
    have hvalue := hopcode.emit (.signed 4 v.toInt)
    rw [join_assoc, ← Field.encodeAll_singleton] at hvalue
    exact hvalue
  | pushLong v =>
    have hvalue := hopcode.emit (.signed 8 v.toInt)
    rw [join_assoc, ← Field.encodeAll_singleton] at hvalue
    exact hvalue
  | spawn priority name =>
    have hname := (hopcode.emit (.signed 4 priority.toInt)).literal name
    rw [join_assoc, join_assoc, join_ok, ← Field.encodeAll_cons] at hname
    exact hname
  | bindAt t | jump t =>
    have htarget := hopcode.target hlabels t
    rw [join_assoc] at htarget
    simp only [Instruction.encode, Instruction.operands]
    cases hn : t.resolve table with
    | error e =>
      rw [hn] at htarget
      exact htarget
    | ok n =>
      rw [hn] at htarget
      exact htarget
  | pushText bytes =>
    have htext := hopcode.literal bytes
    rw [join_assoc] at htext
    exact htext

/-- What is added comes behind what was there, also where the gaps of both are filled. -/
theorem Holds.addAll (h : b.Holds labels image)
    (hlabels : ∀ name, labels[name]? = table.lookup name) (l : Listing) :
    (b.addAll l).Holds labels
      (join image (l.mapM (Item.encode table) >>= fun parts => .ok parts.flatten)) := by
  induction l generalizing b image with
  | nil => exact (join_nil image).symm ▸ h
  | cons item rest ih =>
    have hadded : (b.add item).Holds labels (join image (item.encode table)) := by
      cases item with
      | label name => exact (join_nil image).symm ▸ h.label name
      | instruction i => exact h.instruction hlabels i
    have hrest := ih hadded
    rw [join_assoc] at hrest
    rw [List.mapM_cons]
    cases hitem : item.encode table with
    | error e =>
      rw [hitem] at hrest
      exact hrest
    | ok bytes =>
      rw [hitem] at hrest
      cases hparts : rest.mapM (Item.encode table) <;> rw [hparts] at hrest <;> exact hrest

/-! ### Labels and defects -/

/-- The labels that have an offset. -/
def Knows (b : Builder) (seen : List String) : Prop :=
  ∀ name, name ∈ b.labels ↔ name ∈ seen

theorem length_literal (b : Builder) (bytes : List UInt8) :
    (b.literal bytes).code.length =
      b.code.length + (2 + if bytes.length < literalLimit then bytes.length else 0) := by
  rw [literal]
  split <;> simp [emit, report, Field.encode]

theorem length_target (b : Builder) (t : Target) :
    (b.target t).code.length = b.code.length + 4 := by
  cases t <;> simp [target, fixup, emit, Field.encode]

theorem length_instruction (b : Builder) (i : Instruction) :
    (b.instruction i).code.length = b.code.length + i.size := by
  cases i <;>
    simp only [instruction, length_literal, length_target, emit, Field.encode, Instruction.size,
      List.length_append, List.length_singleton, BigEndian.length_encodeSigned] <;> omega

theorem labels_instruction (b : Builder) (i : Instruction) :
    (b.instruction i).labels = b.labels := by
  have hliteral (b : Builder) (bytes : List UInt8) : (b.literal bytes).labels = b.labels := by
    rw [literal]
    split <;> rfl
  have htarget (b : Builder) (t : Target) : (b.target t).labels = b.labels := by
    cases t <;> rfl
  cases i <;> simp only [instruction, hliteral, htarget, emit]

theorem errors_instruction (b : Builder) (i : Instruction) :
    (b.instruction i).errors = b.errors ++ i.defect?.toList := by
  have hliteral (b : Builder) (bytes : List UInt8) : (b.literal bytes).errors = b.errors ++
      (if bytes.length < literalLimit then none
        else some (ListingError.literalTooLong bytes.length)).toList := by
    rw [literal]
    split <;> simp [emit, report]
  have htarget (b : Builder) (t : Target) : (b.target t).errors = b.errors := by
    cases t <;> rfl
  cases i <;> simp [instruction, hliteral, htarget, emit, Instruction.defect?]

theorem label_of_mem {name : String} (h : name ∈ b.labels) :
    b.label name =
      { b with labels := b.labels.insert name b.offset }.report (.duplicateLabel name) := by
  rw [label, if_pos h]

theorem label_of_not_mem {name : String} (h : name ∉ b.labels) :
    b.label name = { b with labels := b.labels.insert name b.offset } := by
  rw [label, if_neg h]

theorem length_add (b : Builder) (item : Item) :
    (b.add item).code.length = b.code.length + item.size := by
  cases item with
  | label name =>
    simp only [add, label]
    split <;> rfl
  | instruction i => exact length_instruction b i

theorem addAll_cons (b : Builder) (item : Item) (rest : Listing) :
    b.addAll (item :: rest) = (b.add item).addAll rest := rfl

theorem length_addAll (b : Builder) (l : Listing) :
    (b.addAll l).code.length = b.code.length + l.size := by
  induction l generalizing b with
  | nil => rfl
  | cons item rest ih => rw [addAll_cons, ih, length_add, Listing.size, Nat.add_assoc]

/-- A defect that was noted stays the first. -/
theorem head?_errors_addAll {e : ListingError} (h : b.errors.head? = some e) (l : Listing) :
    (b.addAll l).errors.head? = some e := by
  induction l generalizing b with
  | nil => exact h
  | cons item rest ih =>
    rw [addAll_cons]
    refine ih ?_
    cases item with
    | label name =>
      simp only [add, label]
      split <;> simp [report, h]
    | instruction i => simp [add, errors_instruction, h]

theorem Knows.label {seen : List String} (h : b.Knows seen) {name : String}
    (hnew : name ∉ b.labels) : (b.label name).Knows (name :: seen) := by
  intro other
  rw [label_of_not_mem hnew, Std.HashMap.mem_insert, h other, List.mem_cons, beq_iff_eq, eq_comm]

theorem Knows.instruction {seen : List String} (h : b.Knows seen) (i : Instruction) :
    (b.instruction i).Knows seen := by
  intro name
  rw [labels_instruction, h name]

theorem errors_addAll {seen : List String} (hseen : b.Knows seen) (hnone : b.errors = [])
    (l : Listing) : (b.addAll l).errors.head? = l.defectAfter? seen := by
  induction l generalizing b seen with
  | nil =>
    show b.errors.head? = none
    rw [hnone, List.head?_nil]
  | cons item rest ih =>
    rw [addAll_cons]
    cases item with
    | label name =>
      rw [Listing.defectAfter?, add]
      by_cases hmem : name ∈ b.labels
      · rw [if_pos ((hseen name).1 hmem), label_of_mem hmem]
        exact head?_errors_addAll (by simp [report, hnone]) rest
      · rw [if_neg (mt (hseen name).2 hmem)]
        refine ih (hseen.label hmem) ?_
        rw [label_of_not_mem hmem, hnone]
    | instruction i =>
      have herrors := errors_instruction b i
      rw [Listing.defectAfter?, add]
      cases hdefect : i.defect? with
      | none =>
        rw [hdefect, hnone] at herrors
        exact ih (hseen.instruction i) herrors
      | some e =>
        rw [hdefect, hnone] at herrors
        exact head?_errors_addAll (by rw [herrors]; rfl) rest

/-- Where no label is given twice, each one has the offset of what follows it. -/
theorem labels_addAll {seen : List String} (hseen : b.Knows seen) {l : Listing}
    (hdefect : l.defectAfter? seen = none) (hsize : b.code.length + l.size < addressLimit)
    (name : String) :
    (b.addAll l).labels[name]? =
      b.labels[name]?.or ((l.labelsFrom b.code.length).lookup name) := by
  induction l generalizing b seen with
  | nil => exact Option.or_none.symm
  | cons item rest ih =>
    rw [Listing.size, ← Nat.add_assoc, ← length_add] at hsize
    have hlength := length_add b item
    rw [addAll_cons]
    cases item with
    | label defined =>
      rw [Listing.defectAfter?] at hdefect
      split at hdefect
      · contradiction
      · rename_i hnew
        have hmem : defined ∉ b.labels := mt (hseen defined).1 hnew
        have hoffset : b.offset = b.code.length := Nat.mod_eq_of_lt (by omega)
        have hrest := ih (hseen.label hmem) hdefect hsize
        rw [add, hrest, label_of_not_mem hmem, Std.HashMap.getElem?_insert, Listing.labelsFrom,
          List.lookup_cons, hoffset]
        by_cases hname : defined = name
        · subst hname
          simp [hmem]
        · have hother : (name == defined) = false := by simpa using Ne.symm hname
          simp [hname, hother]
    | instruction i =>
      rw [Listing.defectAfter?, Option.or_eq_none_iff] at hdefect
      have hrest := ih (hseen.instruction i) hdefect.2 hsize
      rw [add, hrest, labels_instruction, length_instruction, Listing.labelsFrom]

/-- Both ways give the same image, or fail for the same reason. -/
theorem build_addAll (l : Listing) : (addAll {} l).build = l.build := by
  have hseen : Knows {} [] := fun name => by simp
  have herrors := errors_addAll hseen rfl l
  have hlength : (addAll {} l).code.length = l.size :=
    (length_addAll {} l).trans (Nat.zero_add l.size)
  rw [build, herrors, hlength, Listing.build, Listing.defect?]
  cases hdefect : l.defectAfter? [] with
  | some e => rfl
  | none =>
    by_cases hlarge : addressLimit ≤ l.size
    · simp only [if_pos hlarge]
      rfl
    · have hlabels : ∀ name : String, (addAll {} l).labels[name]? = l.labels.lookup name := by
        intro name
        rw [labels_addAll hseen hdefect (by simpa using hlarge) name]
        simp [Listing.labels]
      have hempty : Holds (addAll {} l).labels {} (.ok []) :=
        ⟨fun f hf => absurd hf List.not_mem_nil, rfl⟩
      simp only [if_neg hlarge]
      have hresolved := (hempty.addAll hlabels l).resolved
      rw [hresolved]
      cases l.mapM (Item.encode l.labels) <;> rfl

end Builder

end BytecodeKernel
