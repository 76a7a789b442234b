import BytecodeKernel.Proofs.Machine.Piles
import BytecodeKernel.Proofs.Machine.Quanta
import BytecodeKernel.Proofs.Machine.Refinement
import BytecodeKernel.Proofs.Program.Disassembly
/-!
What a program can have printed. The heap of a program is a pile of the literals that it pushed, so
a text that is printed is one of these as a whole: whatever number the program makes up, and
whatever was in the arena before, no other bytes are shown.
-/

namespace BytecodeKernel

variable {σ α : Type}

/-- A slot stands for the address with its value. -/
theorem Address.ofSlot?_eq_some_iff {v : Int64} {addr : Nat} :
    ofSlot? v = some addr ↔ v.toInt = addr ∧ addr < addressLimit := by
  rw [ofSlot?]
  split
  · rw [Option.some.injEq]
    omega
  · have hne : ¬(v.toInt = addr ∧ addr < addressLimit) := by omega
    exact ⟨fun h => by contradiction, fun h => absurd h hne⟩

/-! ### Literals -/

namespace BigEndian

variable {bytes word : List UInt8} {offset width : Nat}

theorem le_of_word? (h : word? bytes offset width = some word) : offset + width ≤ bytes.length := by
  rw [word?] at h
  split at h
  · assumption
  · contradiction

theorem length_of_word? (h : word? bytes offset width = some word) : word.length = width := by
  have hend := le_of_word? h
  rw [word?, if_pos hend, Option.some.injEq] at h
  rw [← h, List.length_take, List.length_drop]
  omega

end BigEndian

/-- The text that the instruction at an offset pushes, if it is one that pushes a text. -/
def pushedText? (program : List UInt8) (offset : Nat) : Option (List UInt8) :=
  match Instruction.read? program offset with
  | some (.pushText text, _) => some text
  | _ => none

/-- The bytes that the instruction at an offset adds to the heap. -/
def pushedText (program : List UInt8) (offset : Nat) : List UInt8 :=
  (pushedText? program offset).getD []

section Reading

variable {program : List UInt8} {offset : Nat} {byte : UInt8} {o : Opcode}

theorem Instruction.ofParts_ne_pushText (ho : o ≠ .pushText) (fixed tail text : List UInt8) :
    Instruction.ofParts o fixed tail ≠ .pushText text := by
  cases o with
  | pushText => exact absurd rfl ho
  | _ => exact Instruction.noConfusion

/-- Other instructions push no text. -/
theorem pushedText?_of_ne (hbyte : program[offset]? = some byte)
    (ho : Opcode.ofByte? byte = some o) (hne : o ≠ .pushText) :
    pushedText? program offset = none := by
  rw [pushedText?]
  cases hread : Instruction.read? program offset with
  | none => rfl
  | some result =>
    simp only [Instruction.read?, hbyte, ho, Option.bind_eq_bind, Option.bind_some,
      Option.bind_eq_some_iff, Option.pure_def, Option.some.injEq] at hread
    obtain ⟨fixed, -, tail, -, rfl⟩ := hread
    have hother := Instruction.ofParts_ne_pushText hne fixed tail
    generalize Instruction.ofParts o fixed tail = i at hother
    cases i with
    | pushText text => exact absurd rfl (hother text)
    | _ => rfl

/-- A text stands behind its length. -/
theorem pushedText?_of_code (hbyte : program[offset]? = some Opcode.pushText.code) :
    pushedText? program offset = (BigEndian.word? program (offset + 1) 2).bind fun fixed =>
      BigEndian.word? program (offset + 1 + 2) (BigEndian.decode fixed) := by
  simp only [pushedText?, Instruction.read?, hbyte, Opcode.ofByte?_code, Option.bind_eq_bind,
    Option.bind_some, Opcode.operandBytes, Opcode.tailLength, Option.pure_def]
  cases BigEndian.word? program (offset + 1) 2 with
  | none => rfl
  | some fixed =>
    simp only [Option.bind_some]
    cases BigEndian.word? program (offset + 1 + 2) (BigEndian.decode fixed) <;> rfl

end Reading

/-! ### Piles -/

namespace Pile

/-- The pile with one more text. An empty text takes no place. -/
def lay (x : Pile) (text : List UInt8) : Pile :=
  if text = [] then x
  else ⟨x.next + text.length, fun k => if k = x.next then .ok text else x.texts k⟩

@[simp] theorem lay_nil (x : Pile) : x.lay [] = x :=
  if_pos rfl

theorem shelf_store {text : List UInt8} (htext : text ≠ []) (x : Pile) :
    shelf.store text x = .ok (x.next, x.lay text) := by
  rw [lay, if_neg htext]
  rfl

theorem next_lay (x : Pile) (text : List UInt8) : (x.lay text).next = x.next + text.length := by
  by_cases htext : text = []
  · rw [htext, lay_nil, List.length_nil, Nat.add_zero]
  · rw [lay, if_neg htext]

theorem texts_lay {text : List UInt8} (htext : text ≠ []) (x : Pile) (k : Nat) :
    (x.lay text).texts k = if k = x.next then .ok text else x.texts k := by
  rw [lay, if_neg htext]

/-- At an address there is the new text, or what was there before. -/
theorem texts_lay_cases (x : Pile) (text : List UInt8) (k : Nat) :
    (x.lay text).texts k = .ok text ∨ (x.lay text).texts k = x.texts k := by
  by_cases htext : text = []
  · rw [htext, lay_nil]
    exact .inr rfl
  · rw [texts_lay htext]
    split
    · exact .inl rfl
    · exact .inr rfl

/-- The new text is behind all others. -/
theorem texts_lay_eq_ok_iff {x : Pile} (hbelow : ∀ k text, x.texts k = .ok text → k < x.next)
    (new : List UInt8) (k : Nat) (text : List UInt8) :
    (x.lay new).texts k = .ok text ↔
      x.texts k = .ok text ∨ text ≠ [] ∧ text = new ∧ k = x.next := by
  by_cases hnew : new = []
  · rw [hnew, lay_nil]
    exact ⟨.inl, fun h => h.elim id fun ⟨htext, heq, _⟩ => absurd heq htext⟩
  · rw [texts_lay hnew]
    by_cases hk : k = x.next
    · rw [if_pos hk]
      constructor
      · intro h
        obtain rfl := Except.ok.inj h
        exact .inr ⟨hnew, rfl, hk⟩
      · rintro (hold | ⟨-, rfl, -⟩)
        · exact absurd (hbelow k text hold) (by omega)
        · rfl
    · rw [if_neg hk]
      exact ⟨.inl, fun h => h.elim id fun ⟨_, _, heq⟩ => absurd heq hk⟩

/-- The texts end in the space of the table. -/
theorem Shows.next_le {b : Blocks} {x : Pile} (h : Shows b x) : x.next ≤ 1 + b.extent := by
  obtain ⟨sizes, room, rfl, hnext⟩ := h
  have hlive : Segment.extent (sizes.map .live) = sizes.sum := by
    clear hnext
    induction sizes with
    | nil => rfl
    | cons n rest ih => rw [List.map_cons, Segment.extent_cons, ih, List.sum_cons, Segment.size]
  rw [hnext, Blocks.extent, Segment.stacked, Segment.extent_append, hlive]
  omega

end Pile

/-! ### The shelf in a run -/

namespace Ideal

variable {H : Type} {x : H}

theorem preserves_pop : Preserves (fun i : Ideal H => i.heap = x) pop := by
  intro i hi
  rw [pop]
  cases i.operands <;> exact hi

theorem preserves_push (v : Int64) : Preserves (fun i : Ideal H => i.heap = x) (push v) :=
  fun _ hi => hi

theorem preserves_binary (f : Int64 → Int64 → Int64) :
    Preserves (fun i : Ideal H => i.heap = x) (binary f) :=
  .bind preserves_pop fun _ => .bind preserves_pop fun _ => preserves_push _

theorem preserves_divide (offset : Nat) (f : Int64 → Int64 → Int64) :
    Preserves (fun i : Ideal H => i.heap = x) (divide offset f) := by
  refine .bind preserves_pop fun _ => .bind preserves_pop fun _ => ?_
  exact .optional (.throw _) (preserves_push _)

theorem preserves_popProcess : Preserves (fun i : Ideal H => i.heap = x) popProcess := by
  refine .bind preserves_pop fun v => ?_
  cases ProcessId.ofSlot? v with
  | some id => exact .pure id
  | none => exact .throw _

namespace Setting

variable {g : Setting H}

theorem preserves_ask (call : HostCall) :
    Preserves (fun i : Ideal H => i.heap = x) (g.ask call) := by
  intro i hi
  rw [ask]
  cases g.oracle i.calls call <;> exact hi

theorem preserves_request (call : HostCall) :
    Preserves (fun i : Ideal H => i.heap = x) (g.request call) :=
  .bind (preserves_ask call) fun _ => .pure ()

theorem preserves_operand (o : Opcode) (width : Nat) :
    Preserves (fun i : Ideal H => i.heap = x) (g.operand o width) := by
  refine .bind (.bind (fun _ hi => hi) fun offset => ?_) fun bytes => ?_
  · exact .optional (.throw _) (.pure _)
  · exact .bind (fun _ hi => hi) fun _ => .pure bytes

theorem preserves_signedOperand (o : Opcode) (width : Nat) :
    Preserves (fun i : Ideal H => i.heap = x) (g.signedOperand o width) :=
  .bind (preserves_operand o width) fun _ => .pure _

theorem preserves_lengthOperand (o : Opcode) :
    Preserves (fun i : Ideal H => i.heap = x) (g.lengthOperand o) :=
  .bind (preserves_operand o 2) fun _ => .pure _

theorem preserves_literal (o : Opcode) (length : Nat) :
    Preserves (fun i : Ideal H => i.heap = x) (g.literal o length) :=
  .ite (.pure _) (preserves_operand o length)

theorem preserves_offsetOperand (o : Opcode) (last : Int) :
    Preserves (fun i : Ideal H => i.heap = x) (g.offsetOperand o last) :=
  .bind (preserves_signedOperand o 4) fun _ => .ite (.pure _) (.throw _)

theorem preserves_popText : Preserves (fun i : Ideal H => i.heap = x) g.popText := by
  refine .bind preserves_pop fun v => ?_
  cases Address.ofSlot? v with
  | none => exact .throw _
  | some addr =>
    refine .ite (.pure _) (.bind (fun i hi => ?_) fun bytes => .pure _)
    rw [fetch]
    cases g.shelf.fetch i.heap addr <;> exact hi

theorem preserves_checkCall : Preserves (fun i : Ideal H => i.heap = x) g.checkCall :=
  .bind preserves_pop fun _ => .ite (.throw _) (.pure _)

/-- Nothing but the instruction that pushes a text puts anything on the shelf. -/
theorem preserves_perform {o : Opcode} (ho : o ≠ .pushText) (offset : Nat) :
    Preserves (fun i : Ideal H => i.heap = x) (g.perform o offset) := by
  have hdone {y : IdealM H Unit} (hy : Preserves (fun i : Ideal H => i.heap = x) y) :
      Preserves (fun i : Ideal H => i.heap = x) (do y; return (none : Option Outcome)) :=
    .bind hy fun _ => .pure none
  cases o with
  | push => exact .bind (preserves_signedOperand _ 4) fun _ => hdone (preserves_push _)
  | pushLong => exact .bind (preserves_signedOperand _ 8) fun _ => hdone (preserves_push _)
  | spawn =>
    refine .bind (preserves_signedOperand _ 4) fun priority => ?_
    refine .bind (preserves_lengthOperand _) fun length => ?_
    refine .bind (preserves_literal _ length) fun name => ?_
    exact .bind (preserves_ask _) fun child => hdone (preserves_push _)
  | bindAt =>
    refine .bind preserves_popProcess fun target => ?_
    exact .bind (preserves_offsetOperand _ _) fun entry => hdone (preserves_request _)
  | dispatch => exact .bind preserves_popProcess fun target => hdone (preserves_request _)
  | div | mod => exact hdone (preserves_divide _ _)
  | bitNot => exact .bind preserves_pop fun _ => hdone (preserves_push _)
  | storeLocal | loadLocal | deref | arrayRef => exact .bind (.pure ()) fun _ => .pure none
  | jump => exact .bind (preserves_offsetOperand _ _) fun _ => hdone fun _ hi => hi
  | branch | drop => exact .bind preserves_pop fun _ => .pure none
  | pushText => exact absurd rfl ho
  | print => exact .bind preserves_popText fun text => hdone (preserves_request _)
  | call => exact hdone preserves_checkCall
  | halt => exact .bind preserves_pop fun _ => .pure _
  | _ => exact hdone (preserves_binary _)

theorem ahead_eq_word? (g : Setting H) (o : Opcode) (width : Nat) (i : Ideal H) :
    g.ahead o width i = match BigEndian.word? g.program i.cursor width with
      | none => .error (.unexpectedEnd o i.cursor) i
      | some bytes => .ok bytes i := by
  rw [ahead_eq, BigEndian.word?]
  by_cases hend : i.cursor + width ≤ g.program.length
  · rw [if_neg (Nat.not_lt.2 hend), if_pos hend]
  · rw [if_pos (Nat.not_le.1 hend), if_neg hend]

theorem ok_of_lengthOperand {o : Opcode} {i j : Ideal H} {length : Nat}
    (h : g.lengthOperand o i = .ok length j) :
    ∃ fixed, BigEndian.word? g.program i.cursor 2 = some fixed ∧
      length = BigEndian.decode fixed ∧ j = { i with cursor := i.cursor + 2 } := by
  simp only [lengthOperand, operand, Bind.bind, EStateM.bind, ahead_eq_word?] at h
  cases hword : BigEndian.word? g.program i.cursor 2 with
  | none => simp [hword] at h
  | some fixed =>
    simp only [hword] at h
    cases h
    exact ⟨fixed, rfl, rfl, rfl⟩

/-- A text goes where the pile ends, and no text to address zero. -/
theorem ok_of_heapLiteral {g : Setting Pile} (hshelf : g.shelf = Pile.shelf) {o : Opcode}
    {length addr : Nat} {i j : Ideal Pile} (hcursor : i.cursor ≤ g.program.length)
    (h : g.heapLiteral o length i = .ok addr j) :
    ∃ text, BigEndian.word? g.program i.cursor length = some text ∧
      addr = (if text = [] then 0 else i.heap.next) ∧ j.heap = i.heap.lay text ∧
      j.operands = i.operands := by
  rw [heapLiteral] at h
  by_cases hlength : length = 0
  · rw [if_pos hlength] at h
    cases h
    refine ⟨[], ?_, rfl, (i.heap.lay_nil).symm, rfl⟩
    rw [hlength, BigEndian.word?, Nat.add_zero, if_pos hcursor, List.take_zero]
  · rw [if_neg hlength] at h
    simp only [Bind.bind, EStateM.bind, ahead_eq_word?] at h
    cases hword : BigEndian.word? g.program i.cursor length with
    | none => simp [hword] at h
    | some text =>
      have htext : text ≠ [] := by
        rintro rfl
        exact hlength (BigEndian.length_of_word? hword).symm
      simp only [hword, store, hshelf, Pile.shelf_store htext] at h
      cases h
      exact ⟨text, rfl, (if_neg htext).symm, rfl, rfl⟩

/-- The instruction that pushes a text adds it to the pile and pushes its address. -/
theorem ok_of_perform_pushText {g : Setting Pile} (hshelf : g.shelf = Pile.shelf) {offset : Nat}
    {i j : Ideal Pile} {ended : Option Outcome}
    (h : g.perform .pushText offset i = .ok ended j) :
    ∃ text, ((BigEndian.word? g.program i.cursor 2).bind fun fixed =>
        BigEndian.word? g.program (i.cursor + 2) (BigEndian.decode fixed)) = some text ∧
      ended = none ∧ j.heap = i.heap.lay text ∧
      j.operands = wrap (if text = [] then 0 else i.heap.next : Nat) :: i.operands := by
  simp only [perform, Bind.bind, EStateM.bind] at h
  cases hlength : g.lengthOperand .pushText i with
  | error e k => simp [hlength] at h
  | ok length k =>
    obtain ⟨fixed, hfixed, rfl, rfl⟩ := ok_of_lengthOperand hlength
    simp only [hlength] at h
    cases hliteral : g.heapLiteral .pushText (BigEndian.decode fixed)
        { i with cursor := i.cursor + 2 } with
    | error e k => simp [hliteral] at h
    | ok addr k =>
      obtain ⟨text, htext, rfl, hheap, hoperands⟩ :=
        ok_of_heapLiteral hshelf (BigEndian.le_of_word? hfixed) hliteral
      simp only [hliteral] at h
      cases h
      refine ⟨text, ?_, rfl, hheap, ?_⟩
      · rw [hfixed]
        exact htext
      · show wrap _ :: k.operands = _
        rw [hoperands]

/-- One instruction on a pile. -/
theorem ok_of_step {g : Setting Pile} (hshelf : g.shelf = Pile.shelf) {i j : Ideal Pile}
    {ended : Option Outcome} (h : g.step i = .ok ended j) :
    j.heap = i.heap.lay (pushedText g.program i.cursor) ∧
      (g.program[i.cursor]? = some Opcode.pushText.code →
        ∃ text, pushedText? g.program i.cursor = some text) ∧
      ∀ text, pushedText? g.program i.cursor = some text → ended = none ∧
        j.operands = wrap (if text = [] then 0 else i.heap.next : Nat) :: i.operands := by
  rw [step_eq] at h
  cases hbyte : g.program[i.cursor]? with
  | none => simp [hbyte] at h
  | some byte =>
    cases ho : Opcode.ofByte? byte with
    | none => simp [hbyte, ho] at h
    | some o =>
      simp only [hbyte, ho, Bind.bind, EStateM.bind, skip] at h
      obtain rfl := Opcode.code_eq_of_ofByte? ho
      by_cases hpush : o = .pushText
      · subst hpush
        obtain ⟨text, htext, hended, hheap, hoperands⟩ := ok_of_perform_pushText hshelf h
        have hpushed : pushedText? g.program i.cursor = some text :=
          (pushedText?_of_code hbyte).trans htext
        refine ⟨?_, fun _ => ⟨text, hpushed⟩, fun text' htext' => ?_⟩
        · rw [pushedText, hpushed]
          exact hheap
        · obtain rfl := Option.some.inj (hpushed.symm.trans htext')
          exact ⟨hended, hoperands⟩
      · have hother := pushedText?_of_ne hbyte ho hpush
        have hheap := (preserves_perform (g := g) (x := i.heap) hpush i.cursor)
          { i with cursor := i.cursor + 1 } rfl
        rw [h] at hheap
        refine ⟨?_, fun hcode => ?_, fun text htext => ?_⟩
        · rw [pushedText, hother, Option.getD_none, Pile.lay_nil]
          exact hheap
        · have heq := congrArg Opcode.ofByte? (Option.some.inj hcode)
          rw [Opcode.ofByte?_code, Opcode.ofByte?_code] at heq
          exact absurd (Option.some.inj heq) hpush
        · rw [hother] at htext
          contradiction

end Setting

end Ideal

/-! ### Machines with a pile -/

/-- The state of a machine whose heap is a pile. -/
def Machine.piled (m : Machine σ) (x : Pile) : Ideal Pile where
  cursor := m.cursor
  operands := (m.stack.operands m.arena).reverse
  returns := m.stack.returns m.arena
  heap := x
  calls := []

namespace Runner

variable {r : Runner σ} {World : σ → List (Nat × Nat) → Prop} {program : List UInt8} {x : Pile}
  {m n : Machine σ}

/-- The machine has its program, and the pile for its heap. -/
structure Stocked (r : Runner σ) (World : σ → List (Nat × Nat) → Prop) (program : List UInt8)
    (x : Pile) (m : Machine σ) : Prop where
  place : m.InPlace World
  holds : r.image.Holds program m.arena
  shows : Pile.Shows m.heap.blocks x
  texts : ∀ addr, x.texts addr = m.heap.readBlock m.arena addr

/-- What the machine without memory has to do with a runner whose texts are piled up. -/
def piling (hr : r.Discreet World) (hlength : program.length = r.image.length)
    (oracle : List HostCall → HostCall → Except Fault Nat) : Bridge σ Pile where
  runner := r
  World := World
  setting := ⟨r.origin, program, Pile.shelf, oracle⟩
  Shows := Pile.Shows
  past := []
  discreet := hr
  renders := Pile.renders_shelf
  origin := rfl
  length := hlength

namespace Stocked

theorem going (h : r.Stocked World program x m) (hr : r.Discreet World)
    (oracle : List HostCall → HostCall → Except Fault Nat) :
    (piling hr h.holds.length oracle).Going m.recording (m.piled x) := by
  obtain ⟨others, hworld, howns⟩ := h.place.lodged
  refine ⟨⟨⟨others, hworld, howns⟩, h.holds, h.place.order, h.place.tiled, rfl, ?_, rfl, h.shows,
    h.texts, rfl⟩, fun x hx => absurd hx List.not_mem_nil⟩
  rw [Machine.piled, List.reverse_reverse]
  exact (Stack.operands_eq_slots h.place.order.top_le howns
    (List.mem_append_left _ List.mem_cons_self)).symm

theorem of_depicts {hr : r.Discreet World} {hlength : program.length = r.image.length}
    {oracle : List HostCall → HostCall → Except Fault Nat} {n : Machine (Logged σ)} {i : Ideal Pile}
    (h : (piling hr hlength oracle).Depicts n i) :
    r.Stocked World program i.heap n.forget ∧
      n.forget.stack.operands n.forget.arena = i.operands.reverse := by
  obtain ⟨others, hworld, howns⟩ := h.lodged
  refine ⟨⟨⟨⟨others, hworld, howns⟩, h.order, h.tiled⟩, h.program, h.shows, h.texts⟩, ?_⟩
  rw [← h.operands]
  exact Stack.operands_eq_slots h.order.top_le howns (List.mem_append_left _ List.mem_cons_self)

/-- What succeeds on the machine succeeds on the pile. The oracle is one that answers as the host
did this time. -/
theorem follows (h : r.Stocked World program x m) (hr : r.Discreet World)
    {action : Exec (Logged σ) α} {bare : Exec σ α} {y : Ideal.Setting Pile → IdealM Pile α}
    (hmirrors : Mirrors action bare)
    (hmimics : ∀ oracle, (piling hr h.holds.length oracle).Mimics action
      (y ⟨r.origin, program, Pile.shelf, oracle⟩))
    {v : α} (hend : bare m = .ok v n) :
    ∃ oracle j, y ⟨r.origin, program, Pile.shelf, oracle⟩ (m.piled x) = .ok v j ∧
      r.Stocked World program j.heap n ∧ n.stack.operands n.arena = j.operands.reverse := by
  have hforget : forgetEnd (action m.recording) = bare m := hmirrors m.recording
  let oracle := replay (reached (action m.recording)).host.2
  have hanswers : (piling hr h.holds.length oracle).setting.Answers []
      (reached (action m.recording)).host.2 := Ideal.Setting.answers_replay rfl
  have hagree := (hmimics oracle).agree m.recording (m.piled x) (h.going hr oracle) hanswers
  rw [hend] at hforget
  cases hres : action m.recording with
  | error e k =>
    rw [hres] at hforget
    cases hforget
  | ok w k =>
    rw [hres] at hforget hagree
    cases hforget
    obtain ⟨j, hideal, hj⟩ := hagree
    exact ⟨oracle, j, hideal, of_depicts hj.toDepicts⟩

theorem withCursor (h : r.Stocked World program x m) (cursor : Nat) :
    r.Stocked World program x { m with cursor } :=
  ⟨⟨h.place.lodged, h.place.order, h.place.tiled⟩, h.holds, h.shows, h.texts⟩

theorem loaded (h : r.Stocked World program x m) (hr : r.Discreet World) : r.Loaded program m := by
  obtain ⟨others, hworld, howns⟩ := h.place.lodged
  refine ⟨⟨_, List.mem_append_right _ (List.mem_cons_of_mem _ ?_), howns⟩, h.holds⟩
  exact hr.shared _ _ hworld

/-- The pile ends in the heap. -/
theorem next_le (h : r.Stocked World program x m) : x.next ≤ addressLimit := by
  obtain ⟨others, -, howns⟩ := h.place.lodged
  have hend : Address.add? m.heap.base m.heap.size = some (m.heap.base + m.heap.size) :=
    howns.add? (List.mem_append_right _ List.mem_cons_self) (Nat.le_refl m.heap.size)
  have hsize := h.shows.next_le
  rw [h.place.tiled.extent] at hsize
  rw [Address.add?] at hend
  split at hend
  · omega
  · contradiction

theorem next_pos (h : r.Stocked World program x m) : 0 < x.next := by
  obtain ⟨sizes, room, -, hnext⟩ := h.shows
  omega

theorem unwind (h : r.Stocked World program x m) (hr : r.Discreet World)
    (hunwind : r.unwind m.stack.depth m = .ok () n) : r.Stocked World program x n := by
  have hget : (get >>= fun m => r.unwind m.stack.depth : Exec σ Unit) m = .ok () n := hunwind
  obtain ⟨oracle, j, hideal, hn, -⟩ := h.follows hr (y := fun g => g.unwind)
    (Mirrors.get_bind fun m => Mirrors.unwind r _)
    (fun oracle => Bridge.Mimics.unwind (b := piling hr h.holds.length oracle)) hget
  cases hideal
  exact hn

theorem pop (h : r.Stocked World program x m) (hr : r.Discreet World) {v : Int64}
    (hpop : Exec.pop m = .ok v n) : r.Stocked World program x n := by
  obtain ⟨oracle, j, hideal, hn, -⟩ := h.follows hr (y := fun _ => Ideal.pop) Mirrors.pop
    (fun _ => Bridge.Mimics.pop) hpop
  have hheap := Ideal.preserves_pop (x := x) (m.piled x) rfl
  rw [hideal] at hheap
  exact hheap ▸ hn

/-- An instruction lays the text that it pushes, if any, where the pile ends. -/
theorem step (h : r.Stocked World program x m) (hr : r.Discreet World) {ended : Option Outcome}
    (hstep : r.step m = .ok ended n) :
    r.Stocked World program (x.lay (pushedText program m.cursor)) n ∧
      (program[m.cursor]? = some Opcode.pushText.code →
        ∃ text, pushedText? program m.cursor = some text) ∧
      ∀ text, pushedText? program m.cursor = some text → ended = none ∧
        n.stack.operands n.arena = m.stack.operands m.arena ++
          [Ideal.wrap (if text = [] then 0 else x.next : Nat)] := by
  obtain ⟨oracle, j, hideal, hn, hoperands⟩ := h.follows hr (y := fun g => g.step)
    (Mirrors.step r) (fun oracle => Bridge.Mimics.step (b := piling hr h.holds.length oracle)) hstep
  obtain ⟨hheap, hcode, hpushed⟩ := Ideal.Setting.ok_of_step rfl hideal
  refine ⟨hheap ▸ hn, hcode, fun text htext => ?_⟩
  obtain ⟨hended, hj⟩ := hpushed text htext
  refine ⟨hended, ?_⟩
  rw [hoperands, hj, List.reverse_cons, Machine.piled, List.reverse_reverse]

end Stocked

/-- A text is printed, and the program goes on. -/
def speak (r : Runner σ) (text : String) : Exec σ (Option Outcome) := do
  Exec.onHost (r.host.print r.origin text)
  return none

/-- A text is printed if it is one of the pile. -/
theorem Stocked.step_of_print (h : r.Stocked World program x m) (hr : r.Discreet World)
    (hcode : program[m.cursor]? = some Opcode.print.code) {v : Int64}
    (hpop : Exec.pop { m with cursor := m.cursor + 1 } = .ok v n) :
    r.step m = match Address.ofSlot? v with
      | none => .error (.memory (.invalidPointer (v.toInt % 2 ^ 32).toNat)) n
      | some addr =>
        if addr = 0 then r.speak "" n
        else match x.texts addr with
          | .ok text => r.speak (String.ofList (Utf8.decodeLossy text)) n
          | .error e => .error (.memory e) n := by
  have hn := (h.withCursor (m.cursor + 1)).pop hr hpop
  have hstep : r.step m = (popText >>= r.speak) { m with cursor := m.cursor + 1 } := by
    rw [(h.loaded hr).step_eq, hcode]
    simp only [Opcode.ofByte?_code]
    rfl
  rw [hstep]
  simp only [popText, Bind.bind, EStateM.bind, hpop]
  cases Address.ofSlot? v with
  | none =>
    rw [← Ideal.low_word]
    rfl
  | some addr =>
    by_cases haddr : addr = Address.null
    · simp only [if_pos haddr, if_pos (show addr = 0 from haddr)]
      rfl
    · simp only [if_neg haddr, if_neg (show addr ≠ 0 from haddr), hn.texts addr, EStateM.bind,
        run_get]
      cases n.heap.readBlock n.arena addr <;> rfl

/-! ### Runs -/

/-- The machines at which the instructions of a run start, in order. -/
def visits (r : Runner σ) : Nat → Machine σ → List (Machine σ)
  | 0, _ => []
  | budget + 1, m =>
    match r.unwind m.stack.depth m with
    | .error _ _ => []
    | .ok _ m =>
      if r.image.length ≤ m.cursor then []
      else m :: match r.step m with
        | .ok none m => visits r budget m
        | .ok (some _) _ | .error _ _ => []

/-- The same for a run with each of the budgets, up to the first fault. -/
def visited (r : Runner σ) : List Nat → Machine σ → List (Machine σ)
  | [], _ => []
  | budget :: rest, m => r.visits budget m ++
    match r.run budget m with
    | .ok _ m => visited r rest m
    | .error _ _ => []

/-- The bytes of the texts that are pushed by the instructions at these machines. -/
def literals (program : List UInt8) (front : List (Machine σ)) : List UInt8 :=
  front.flatMap fun p => pushedText program p.cursor

/-- The instruction at this machine pushes a text and returns this address for it. -/
def Hands (r : Runner σ) (program : List UInt8) (p : Machine σ) (v : Int64) (text : List UInt8) :
    Prop :=
  pushedText? program p.cursor = some text ∧ ∃ k, r.step p = .ok none k ∧
    k.stack.operands k.arena = p.stack.operands p.arena ++ [v]

/-- The pile is what instructions at these machines pushed. -/
structure Recalls (r : Runner σ) (program : List UInt8) (front : List (Machine σ)) (x : Pile) :
    Prop where
  next : x.next = 1 + (literals program front).length
  below : ∀ k text, x.texts k = .ok text → k < x.next
  handed : ∀ k text, x.texts k = .ok text ↔
    text ≠ [] ∧ ∃ p ∈ front, ∃ v, r.Hands program p v text ∧ v.toInt = k
  refuses : ∀ k, (∃ text, x.texts k = .ok text) ∨ x.texts k = .error (.invalidPointer k)

variable {front : List (Machine σ)} {ended : Option Outcome}

theorem literals_append (program : List UInt8) (front : List (Machine σ)) (m : Machine σ) :
    literals program (front ++ [m]) = literals program front ++ pushedText program m.cursor := by
  simp [literals]

/-- The address at which the next text goes fits in a slot. -/
theorem Stocked.toInt_next (h : r.Stocked World program x m) :
    (Ideal.wrap x.next).toInt = x.next := by
  have hle := h.next_le
  rw [addressLimit] at hle
  exact Int64.toInt_ofNat_of_lt (show x.next < 2 ^ 63 by omega)

/-- The address that an instruction returns is where the pile ended. -/
theorem Stocked.eq_of_hands (h : r.Stocked World program x m) (hr : r.Discreet World)
    {text : List UInt8} {v : Int64} (hhands : r.Hands program m v text) :
    v = Ideal.wrap (if text = [] then 0 else x.next : Nat) := by
  obtain ⟨hread, k, hk, hoperands⟩ := hhands
  obtain ⟨-, -, hpushed⟩ := h.step hr hk
  obtain ⟨-, hn⟩ := hpushed text hread
  exact List.singleton_inj.1 (List.append_cancel_left (hoperands.symm.trans hn))

/-- What an instruction that was carried out returns an address for. -/
theorem Stocked.hands_iff (h : r.Stocked World program x m) (hr : r.Discreet World)
    (hstep : r.step m = .ok ended n) {text : List UInt8} (htext : text ≠ []) (v : Int64) :
    r.Hands program m v text ↔ text = pushedText program m.cursor ∧ v.toInt = x.next := by
  obtain ⟨-, -, hpushed⟩ := h.step hr hstep
  constructor
  · intro hhands
    have hv := h.eq_of_hands hr hhands
    rw [if_neg htext] at hv
    rw [pushedText, hhands.1, Option.getD_some, hv]
    exact ⟨rfl, h.toInt_next⟩
  · rintro ⟨htext', hv⟩
    have hread : pushedText? program m.cursor = some text := by
      rw [pushedText] at htext'
      cases hread : pushedText? program m.cursor with
      | none =>
        rw [hread, Option.getD_none] at htext'
        exact absurd htext' htext
      | some other => rw [htext', hread, Option.getD_some]
    obtain ⟨rfl, hn⟩ := hpushed text hread
    rw [if_neg htext] at hn
    obtain rfl := Int64.toInt_inj.1 (hv.trans h.toInt_next.symm)
    exact ⟨hread, n, hstep, hn⟩

theorem recalls_nil (r : Runner σ) (program : List UInt8) : r.Recalls program [] .empty where
  next := rfl
  below _ _ h := nomatch h
  handed _ _ := ⟨fun h => (nomatch h), fun ⟨_, _, hp, _⟩ => absurd hp List.not_mem_nil⟩
  refuses _ := .inr rfl

/-- One more instruction, which may have pushed a text. -/
theorem Recalls.step (h : r.Recalls program front x) (hm : r.Stocked World program x m)
    (hr : r.Discreet World) (hstep : r.step m = .ok ended n) :
    r.Recalls program (front ++ [m]) (x.lay (pushedText program m.cursor)) := by
  have hhands {text : List UInt8} (htext : text ≠ []) (v : Int64) := hm.hands_iff hr hstep htext v
  -- Old texts stay where they are, as the new address is behind theirs.
  have hlay := Pile.texts_lay_eq_ok_iff h.below (pushedText program m.cursor)
  refine ⟨?_, fun k text hk => ?_, fun k text => ?_, fun k => ?_⟩
  · rw [Pile.next_lay, literals_append, List.length_append, h.next, Nat.add_assoc]
  · rw [Pile.next_lay]
    rcases (hlay k text).1 hk with hold | ⟨htext, heq, rfl⟩
    · have hlt := h.below k text hold
      omega
    · have hpos := List.length_pos_of_ne_nil (heq ▸ htext)
      omega
  · rw [hlay, h.handed]
    constructor
    · rintro (⟨htext, p, hp, hv⟩ | ⟨htext, heq, rfl⟩)
      · exact ⟨htext, p, List.mem_append_left _ hp, hv⟩
      · exact ⟨htext, m, List.mem_append_right _ List.mem_cons_self, Ideal.wrap x.next,
          (hhands htext _).2 ⟨heq, hm.toInt_next⟩, hm.toInt_next⟩
    · rintro ⟨htext, p, hp, v, hv, hk⟩
      rcases List.mem_append.1 hp with hp | hp
      · exact .inl ⟨htext, p, hp, v, hv, hk⟩
      · obtain rfl := List.mem_singleton.1 hp
        obtain ⟨heq, hnext⟩ := (hhands htext v).1 hv
        exact .inr ⟨htext, heq, by omega⟩
  · rcases h.refuses k with ⟨text, hold⟩ | hnone
    · exact .inl ⟨text, (hlay k text).2 (.inl hold)⟩
    · rcases Pile.texts_lay_cases x (pushedText program m.cursor) k with hnew | hsame
      · exact .inl ⟨_, hnew⟩
      · exact .inr (hsame.trans hnone)

/-- The machine has what instructions at these machines pushed. -/
def Tracks (r : Runner σ) (World : σ → List (Nat × Nat) → Prop) (program : List UInt8)
    (front : List (Machine σ)) (m : Machine σ) : Prop :=
  ∃ x, r.Stocked World program x m ∧ r.Recalls program front x

namespace Tracks

theorem unwind (h : r.Tracks World program front m) (hr : r.Discreet World)
    (hunwind : r.unwind m.stack.depth m = .ok () n) : r.Tracks World program front n := by
  obtain ⟨x, hm, hx⟩ := h
  exact ⟨x, hm.unwind hr hunwind, hx⟩

theorem step (h : r.Tracks World program front m) (hr : r.Discreet World)
    (hstep : r.step m = .ok ended n) : r.Tracks World program (front ++ [m]) n := by
  obtain ⟨x, hm, hx⟩ := h
  exact ⟨_, (hm.step hr hstep).1, hx.step hm hr hstep⟩

end Tracks

/-- Each of the machines has what instructions at those before it pushed. -/
def Passes (r : Runner σ) (World : σ → List (Nat × Nat) → Prop) (program : List UInt8)
    (front visits : List (Machine σ)) : Prop :=
  ∀ before n after, visits = before ++ n :: after → r.Tracks World program (front ++ before) n

theorem passes_nil : r.Passes World program front [] := by
  rintro before n after hvisits
  exact absurd hvisits.symm (List.append_ne_nil_of_right_ne_nil _ (List.cons_ne_nil _ _))

theorem Tracks.passes_cons {visits : List (Machine σ)} (hm : r.Tracks World program front m)
    (hrest : r.Passes World program (front ++ [m]) visits) :
    r.Passes World program front (m :: visits) := by
  intro before n after hvisits
  rcases List.cons_eq_append_iff.1 hvisits with ⟨rfl, heq⟩ | ⟨before, rfl, heq⟩
  · obtain ⟨rfl, -⟩ := List.cons.inj heq
    rwa [List.append_nil]
  · rw [List.append_cons]
    exact hrest before n after heq

theorem Passes.append {first second : List (Machine σ)}
    (hfirst : r.Passes World program front first)
    (hsecond : r.Passes World program (front ++ first) second) :
    r.Passes World program front (first ++ second) := by
  intro before n after hvisits
  rcases List.append_eq_append_iff.1 hvisits with ⟨between, rfl, heq⟩ | ⟨between, heq, hafter⟩
  · rw [← List.append_assoc]
    exact hsecond between n after heq
  · cases between with
    | nil =>
      -- The split is where the second list starts.
      rw [List.append_nil] at heq
      obtain rfl := heq
      have hstart := hsecond [] n after hafter.symm
      rwa [List.append_nil] at hstart
    | cons p between =>
      obtain ⟨rfl, -⟩ := List.cons.inj hafter
      exact hfirst before _ between heq

/-- A run, where its instructions start and where it ends. -/
theorem Tracks.run (h : r.Tracks World program front m) (hr : r.Discreet World) (budget : Nat) :
    r.Passes World program front (r.visits budget m) ∧
      ∀ outcome n, r.run budget m = .ok outcome n →
        r.Tracks World program (front ++ r.visits budget m) n := by
  induction budget generalizing front m with
  | zero =>
    refine ⟨passes_nil, fun outcome n hrun => ?_⟩
    rw [run_zero] at hrun
    obtain ⟨-, rfl⟩ := EStateM.Result.ok.inj hrun
    rwa [visits, List.append_nil]
  | succ budget ih =>
    rw [run_next, visits]
    cases hunwind : r.unwind m.stack.depth m with
    | error e n => exact ⟨passes_nil, fun _ _ hrun => by contradiction⟩
    | ok _ n =>
      have hn := h.unwind hr hunwind
      by_cases hend : r.image.length ≤ n.cursor
      · simp only [if_pos hend, List.append_nil]
        refine ⟨passes_nil, fun outcome k hrun => ?_⟩
        obtain ⟨-, rfl⟩ := EStateM.Result.ok.inj hrun
        exact hn
      · simp only [if_neg hend]
        cases hstep : r.step n with
        | error e k => exact ⟨hn.passes_cons passes_nil, fun _ _ hrun => by contradiction⟩
        | ok ended k =>
          have hk := hn.step hr hstep
          cases ended with
          | some outcome =>
            refine ⟨hn.passes_cons passes_nil, fun _ _ hrun => ?_⟩
            obtain ⟨-, rfl⟩ := EStateM.Result.ok.inj hrun
            exact hk
          | none =>
            obtain ⟨hpasses, hends⟩ := ih hk
            refine ⟨hn.passes_cons hpasses, fun outcome l hrun => ?_⟩
            rw [List.append_cons]
            exact hends outcome l hrun

/-- Runs with one budget after the other. -/
theorem Tracks.passes_visited (h : r.Tracks World program front m) (hr : r.Discreet World)
    (budgets : List Nat) : r.Passes World program front (r.visited budgets m) := by
  induction budgets generalizing front m with
  | nil => exact passes_nil
  | cons budget rest ih =>
    obtain ⟨hpasses, hends⟩ := h.run hr budget
    refine hpasses.append ?_
    cases hrun : r.run budget m with
    | error e n => exact passes_nil
    | ok outcome n => exact ih (hends outcome n hrun)

/-- A heap that was not used yet has no texts. -/
theorem tracks_nil (hm : m.InPlace World) (hholds : r.image.Holds program m.arena)
    (hfresh : m.heap.blocks = .ofSize 1 m.heap.size) : r.Tracks World program [] m := by
  refine ⟨.empty, ⟨hm, hholds, ?_, fun addr => ?_⟩, recalls_nil r program⟩
  · rw [hfresh]
    exact Pile.shows_ofSize _
  · exact (Heap.readBlock_of_ofSize hfresh m.arena addr).symm

section Print

variable {before : List (Machine σ)} {k : Machine σ} {v : Int64}

/-- A value that an instruction before returned is printed as the text that it was returned for. -/
theorem Recalls.print_of_hands (hx : r.Recalls program before x) (hn : r.Stocked World program x n)
    (hr : r.Discreet World) (hcode : program[n.cursor]? = some Opcode.print.code)
    (hpop : Exec.pop { n with cursor := n.cursor + 1 } = .ok v k) {p : Machine σ} (hp : p ∈ before)
    {y : Pile} (hy : r.Stocked World program y p) {text : List UInt8}
    (hhands : r.Hands program p v text) :
    r.step n = r.speak (String.ofList (Utf8.decodeLossy text)) k := by
  have hv := hy.eq_of_hands hr hhands
  rw [hn.step_of_print hr hcode hpop]
  by_cases htext : text = []
  · rw [if_pos htext] at hv
    rw [hv, htext]
    rfl
  · rw [if_neg htext] at hv
    have haddr : v.toInt = y.next := hv ▸ hy.toInt_next
    have hold := (hx.handed y.next text).2 ⟨htext, p, hp, v, hhands, haddr⟩
    have hlt := (hx.below _ _ hold).trans_le hn.next_le
    have hslot := Address.ofSlot?_eq_some_iff.2 ⟨haddr, hlt⟩
    simp only [hslot, if_neg hy.next_pos.ne', hold]

/-- A value that no instruction returned is refused. -/
theorem Recalls.print_of_forged (hx : r.Recalls program before x) (hn : r.Stocked World program x n)
    (hr : r.Discreet World) (hcode : program[n.cursor]? = some Opcode.print.code)
    (hpop : Exec.pop { n with cursor := n.cursor + 1 } = .ok v k) (hv : v ≠ 0)
    (hnone : ∀ p ∈ before, ∀ text, ¬ r.Hands program p v text) :
    r.step n = .error (.memory (.invalidPointer (v.toInt % 2 ^ 32).toNat)) k := by
  rw [hn.step_of_print hr hcode hpop]
  cases hslot : Address.ofSlot? v with
  | none => rfl
  | some addr =>
    obtain ⟨haddr, hlimit⟩ := Address.ofSlot?_eq_some_iff.1 hslot
    have hnull : addr ≠ 0 := by
      rintro rfl
      exact hv (Int64.toInt_inj.1 haddr)
    have hnotext (text : List UInt8) : x.texts addr ≠ .ok text := by
      intro htext
      obtain ⟨-, p, hp, w, hhands, hw⟩ := (hx.handed addr text).1 htext
      obtain rfl := Int64.toInt_inj.1 (hw.trans haddr.symm)
      exact hnone p hp text hhands
    have hrefused : x.texts addr = .error (.invalidPointer addr) :=
      (hx.refuses addr).resolve_left fun ⟨text, htext⟩ => hnotext text htext
    have hlow : (v.toInt % 2 ^ 32).toNat = addr := by
      rw [addressLimit] at hlimit
      omega
    simp only [if_neg hnull, hrefused, hlow]

end Print

/-- Whatever the program is, and whatever was in the arena and on the stack before, in runs with any
budgets: a text is pushed as one more than the number of bytes of all texts before it, or as zero if
it is empty. What is printed for a value are the bytes of the program that an instruction before
returned this value for, or no text for zero. Every other value is refused, however the program came
by it. -/
theorem print_shows_literals_only (hr : r.Discreet World) (hm : m.InPlace World)
    (hfresh : m.heap.blocks = .ofSize 1 m.heap.size) (hholds : r.image.Holds program m.arena)
    (budgets : List Nat) {before after : List (Machine σ)}
    (hvisited : r.visited budgets m = before ++ n :: after) :
    (program[n.cursor]? = some Opcode.pushText.code → ∀ ended k, r.step n = .ok ended k →
      ∃ (text : List UInt8) (v : Int64), pushedText? program n.cursor = some text ∧ ended = none ∧
        k.stack.operands k.arena = n.stack.operands n.arena ++ [v] ∧
        v.toInt = (if text = [] then 0 else 1 + (literals program before).length : Nat)) ∧
    (program[n.cursor]? = some Opcode.print.code → ∀ v k,
      Exec.pop { n with cursor := n.cursor + 1 } = .ok v k →
        (v = 0 → r.step n = r.speak "" k) ∧
        (∀ p ∈ before, ∀ text, r.Hands program p v text →
          r.step n = r.speak (String.ofList (Utf8.decodeLossy text)) k) ∧
        (v ≠ 0 → (∀ p ∈ before, ∀ text, ¬ r.Hands program p v text) →
          r.step n = .error (.memory (.invalidPointer (v.toInt % 2 ^ 32).toNat)) k)) := by
  have hpasses := (tracks_nil hm hholds hfresh).passes_visited hr budgets
  obtain ⟨x, hn, hx⟩ := hpasses before n after hvisited
  rw [List.nil_append] at hx
  refine ⟨fun hcode ended k hstep => ?_, fun hcode v k hpop => ?_⟩
  · obtain ⟨-, hread, hpushed⟩ := hn.step hr hstep
    obtain ⟨text, htext⟩ := hread hcode
    obtain ⟨hended, hoperands⟩ := hpushed text htext
    refine ⟨text, _, htext, hended, hoperands, ?_⟩
    split
    · rfl
    · rw [hn.toInt_next, hx.next]
  · refine ⟨?_, fun p hp text hhands => ?_, hx.print_of_forged hn hr hcode hpop⟩
    · rintro rfl
      exact hn.step_of_print hr hcode hpop
    · obtain ⟨front, between, rfl⟩ := List.append_of_mem hp
      rw [List.append_assoc] at hvisited
      obtain ⟨y, hy, -⟩ := hpasses front p _ hvisited
      exact hx.print_of_hands hn hr hcode hpop hp hy hhands

/-! ### A program that makes up an address -/

/-- Pushes three texts, one of them empty, prints them, and then prints the middle of the first. -/
def balladProgram : List UInt8 :=
  [28, 0, 2, 104, 105, 28, 0, 0, 29, 28, 0, 1, 97, 29, 29, 0, 0, 0, 0, 2, 29]

def balladRunner : Runner Recorder where
  origin := 0
  image := { base := 1, length := 21, entry := 0 }
  host := Recorder.host "no room"

/-- The heap is too small for the texts, and the bytes that others left are in the arena. -/
def balladMachine : Machine Recorder where
  heap := { base := 22, size := 1, blocks := .ofSize 1 1 }
  stack := { base := 23, size := 64, initialSize := 64, top := 8 }
  cursor := 0
  arena := { Arena.ofCapacity 4096 with
    store := (({} : ByteStore).write 22 (List.replicate 80 115)).write 1 balladProgram
    blocks := ⟨1, [.live 21, .live 1, .live 64, .free 4010]⟩ }
  host := { nextChild := 1, childrenLeft := 0 }

theorem inPlace_ballad : balladMachine.InPlace fun _ others => (1, 21) ∈ others where
  lodged := by
    have htidy : Segment.Tidy [.live 21, .live 1, .live 64, .free 4010] :=
      ⟨by decide, by simp [Segment.isFree]⟩
    refine ⟨[(1, 21)], List.mem_singleton_self _, ⟨rfl, htidy, rfl, by decide, by decide⟩, ?_⟩
    decide
  order := ⟨by decide, by decide, by decide, fun h => absurd rfl h⟩
  tiled := ⟨rfl, Blocks.tidy_ofSize _ _, rfl⟩

/-- Texts are printed until the program comes with the number two, which is the address of a byte of
a text and not of a text. -/
theorem shown_of_ballad : ∃ before n after k,
    balladRunner.Discreet (fun _ others => (1, 21) ∈ others) ∧
      balladMachine.InPlace (fun _ others => (1, 21) ∈ others) ∧
      balladMachine.heap.blocks = .ofSize 1 balladMachine.heap.size ∧
      balladRunner.image.Holds balladProgram balladMachine.arena ∧
      balladRunner.visited [3, 0, 9] balladMachine = before ++ n :: after ∧
      balladProgram[n.cursor]? = some Opcode.print.code ∧
      Exec.pop { n with cursor := n.cursor + 1 } = .ok 2 k ∧
      balladRunner.step n = .error (.memory (.invalidPointer 2)) k := by
  have hdiscreet : balladRunner.Discreet (fun _ others => (1, 21) ∈ others) :=
    Recorder.discreet 0 balladRunner.image "no room"
  have hholds : balladRunner.image.Holds balladProgram balladMachine.arena := by
    show balladMachine.arena.store.read 1 21 = balladProgram
    decide +kernel
  have hmeets : (balladRunner.visited [3, 0, 9] balladMachine).any (fun n => n.cursor = 20 &&
      match Exec.pop { n with cursor := n.cursor + 1 } with
      | .ok v _ => v == 2
      | .error _ _ => false) = true := by
    decide +kernel
  have hreturns : (balladRunner.visited [3, 0, 9] balladMachine).all (fun p =>
      let k := reached (balladRunner.step p)
      (k.stack.operands k.arena).getLast? != some 2 ||
        (pushedText? balladProgram p.cursor).isNone) = true := by
    decide +kernel
  obtain ⟨n, hmem, hn⟩ := List.any_eq_true.1 hmeets
  obtain ⟨before, after, hvisited⟩ := List.append_of_mem hmem
  rw [Bool.and_eq_true, decide_eq_true_eq] at hn
  have hcode : balladProgram[n.cursor]? = some Opcode.print.code := by
    rw [hn.1]
    rfl
  cases hpop : Exec.pop { n with cursor := n.cursor + 1 } with
  | error e k => simp [hpop] at hn
  | ok v k =>
    obtain rfl : v = 2 := by simpa [hpop] using hn.2
    obtain ⟨-, hprint⟩ := print_shows_literals_only hdiscreet inPlace_ballad rfl hholds [3, 0, 9]
      hvisited
    obtain ⟨-, -, hrefused⟩ := hprint hcode 2 k hpop
    refine ⟨before, n, after, k, hdiscreet, inPlace_ballad, rfl, hholds, hvisited, hcode, hpop,
      hrefused (by decide) ?_⟩
    rintro p hp text ⟨hread, q, hstep, hoperands⟩
    have hreturn := List.all_eq_true.1 hreturns p (hvisited ▸ List.mem_append_left _ hp)
    simp [hstep, hread, hoperands, reached] at hreturn

end Runner

end BytecodeKernel
