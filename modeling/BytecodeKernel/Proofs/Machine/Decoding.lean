import BytecodeKernel.Proofs.Machine.Programs
import BytecodeKernel.Proofs.Machine.Runs
import BytecodeKernel.Proofs.Machine.Workspaces
import BytecodeKernel.Proofs.Program.Disassembly
/-!
The interpreter carries out what a listing says. On the image of a listing, with the cursor where an
instruction was laid out, one step does what that instruction does with its operands at hand: the
operands that the interpreter reads for itself are those that were written.
-/

namespace BytecodeKernel

variable {σ : Type}

/-- Writes bytes to a heap address, all of them or none. -/
def Heap.fill (h : Heap) (a : Arena) (addr : Nat) (bytes : List UInt8) :
    Except MemoryError Arena :=
  match h.locate? addr bytes.length with
  | some phys => a.write phys bytes
  | none => .error (.outOfBounds addr bytes.length)

theorem Heap.copyIn_eq_fill {h : Heap} {a : Arena} {src : Nat} {bytes : List UInt8}
    (hread : a.read src bytes.length = .ok bytes) (addr : Nat) :
    h.copyIn a addr src bytes.length = h.fill a addr bytes := by
  rw [copyIn, fill]
  cases h.locate? addr bytes.length with
  | none => rfl
  | some phys =>
    simp only [Arena.copy, hread, Arena.write, Bind.bind, Except.bind]
    rfl

/-- Puts a text into a heap block of its own, and moves the cursor on by its length. -/
def Exec.stow (text : List UInt8) : Exec σ Nat := do
  if text = [] then return Address.null
  let addr ← Exec.onHeap (Heap.malloc text.length)
  Exec.onHeap do
    let h ← TenantM.self
    TenantM.updateArena id fun a => h.fill a addr text
  Exec.skip text.length
  return addr

namespace Runner

variable (r : Runner σ)

/-! ### Instructions with their operands at hand -/

/-- The offset that a word stands for when it is read with a sign, refused unless it is at most
`last`. -/
def permit (word : UInt32) (last : Int) : Exec σ Nat := do
  let v := word.toInt32.toInt
  if 0 ≤ v ∧ v ≤ last then return v.toNat
  throw (.invalidJump v r.image.length)

/-- What is done for an instruction at an offset. The image is not looked at. -/
def enact (place : String → UInt32) (offset : Nat) : Instruction → Exec σ (Option Outcome)
  | .plain o => do
    Exec.jumpTo (offset + 1)
    r.perform o offset
  | .push v => do
    Exec.jumpTo (offset + 5)
    Exec.push (Int64.ofInt v.toInt)
    return none
  | .pushLong v => do
    Exec.jumpTo (offset + 9)
    Exec.push v
    return none
  | .spawn priority name => do
    Exec.jumpTo (offset + 7 + name.length)
    let child ← Exec.onHost (r.host.spawn r.origin priority.toInt.toNat name)
    Exec.push (ProcessId.toSlot child)
    return none
  | .bindAt target => do
    Exec.jumpTo (offset + 1)
    let id ← Exec.popProcess
    Exec.jumpTo (offset + 5)
    let entry ← r.permit (target.word place) (r.image.length - 1)
    Exec.onHost (r.host.bind id (r.image.enteredAt entry))
    return none
  | .jump target => do
    Exec.jumpTo (offset + 5)
    Exec.jumpTo (← r.permit (target.word place) r.image.length)
    return none
  | .pushText text => do
    Exec.jumpTo (offset + 3)
    let addr ← Exec.stow text
    Exec.push (Address.toSlot addr)
    return none

/-! ### A machine with its program -/

/-- The machine has its stack and its heap in blocks of their own, beside those of the host, which
has the program among them. -/
structure Seated (World : σ → List (Nat × Nat) → Prop) (program : List UInt8) (m : Machine σ) :
    Prop where
  lodged : ∃ others, World m.host others ∧ r.image.region ∈ others ∧
    m.arena.Owns (m.stack.regions ++ m.heap.region :: others)
  bounded : m.stack.Bounded
  holds : r.image.Holds program m.arena

variable {r} {World : σ → List (Nat × Nat) → Prop} {program text : List UInt8} {m : Machine σ}
  {place : String → UInt32} {i : Instruction}

namespace Seated

theorem loaded (h : r.Seated World program m) : r.Loaded program m := by
  obtain ⟨others, -, hmem, howns⟩ := h.lodged
  exact ⟨⟨_, List.mem_append_right _ (List.mem_cons_of_mem _ hmem), howns⟩, h.holds⟩

theorem withCursor (h : r.Seated World program m) (cursor : Nat) :
    r.Seated World program { m with cursor } :=
  ⟨h.lodged, h.bounded, h.holds⟩

/-- What a stack does to keep to its regions. -/
theorem reached_onStack {α : Type} {x : StackM α}
    (hx : ∀ others a, Preserves (Stack.Home others a) x) (h : r.Seated World program m) :
    r.Seated World program (reached (Exec.onStack x m)) := by
  obtain ⟨others, hworld, hmem, howns⟩ := h.lodged
  have hhome := (hx (m.heap.region :: others) m.arena).reached (s := (m.stack, m.arena))
    ⟨howns, .refl _ _, h.bounded.top_le, h.bounded.depth_le⟩
  rw [Exec.reached_onStack]
  exact ⟨⟨others, hworld, hmem, hhome.owns⟩, ⟨hhome.top_le, hhome.depth_le⟩,
    h.holds.of_spares hhome.spares (List.mem_cons_of_mem _ hmem)⟩

theorem reached_onHeap {α : Type} {x : HeapM α}
    (hx : ∀ others a, Preserves (Heap.Home others a) x) (h : r.Seated World program m) :
    r.Seated World program (reached (Exec.onHeap x m)) := by
  obtain ⟨others, hworld, hmem, howns⟩ := h.lodged
  have hhome := (hx (m.stack.regions ++ others) m.arena).reached (s := (m.heap, m.arena))
    ⟨howns.perm List.perm_middle, .refl _ _⟩
  rw [Exec.reached_onHeap]
  exact ⟨⟨others, hworld, hmem, hhome.owns.perm List.perm_middle.symm⟩, h.bounded,
    h.holds.of_spares hhome.spares (List.mem_append_right _ hmem)⟩

end Seated

/-! ### Operands -/

namespace Loaded

theorem operand_of_stands {bytes : List UInt8} {width : Nat} (h : r.Loaded program m) (o : Opcode)
    (hwidth : width ≠ 0) (hlength : bytes.length = width)
    (hstands : Stands program m.cursor bytes) :
    r.operand o width m = .ok bytes { m with cursor := m.cursor + width } := by
  have hend := hstands.end_le
  have hbytes := hstands.take_drop
  rw [hlength] at hend hbytes
  rw [h.operand_eq o hwidth, if_neg (by omega), hbytes]

theorem int32Operand (h : r.Loaded program m) (o : Opcode) {v : Int32}
    (hstands : Stands program m.cursor (BigEndian.encodeSigned 4 v.toInt)) :
    r.signedOperand o 4 m = .ok v.toInt { m with cursor := m.cursor + 4 } := by
  have hread := h.operand_of_stands o (by decide) (BigEndian.length_encodeSigned 4 _) hstands
  simp only [signedOperand, Bind.bind, EStateM.bind, hread, Instruction.decodeSigned_int32]
  rfl

theorem int64Operand (h : r.Loaded program m) (o : Opcode) {v : Int64}
    (hstands : Stands program m.cursor (BigEndian.encodeSigned 8 v.toInt)) :
    r.signedOperand o 8 m = .ok v.toInt { m with cursor := m.cursor + 8 } := by
  have hread := h.operand_of_stands o (by decide) (BigEndian.length_encodeSigned 8 _) hstands
  simp only [signedOperand, Bind.bind, EStateM.bind, hread, Instruction.decodeSigned_int64]
  rfl

/-- A word is read with a sign. -/
theorem decodeSigned_word (word : UInt32) :
    BigEndian.decodeSigned (BigEndian.encode 4 word.toNat) = word.toInt32.toInt := by
  rw [BigEndian.decodeSigned, Instruction.decode_word, BigEndian.length_encode]
  exact (BitVec.toInt_eq_toNat_bmod _).symm

theorem offsetOperand (h : r.Loaded program m) (o : Opcode) {word : UInt32} (last : Int)
    (hstands : Stands program m.cursor (BigEndian.encode 4 word.toNat)) :
    r.offsetOperand o last m = r.permit word last { m with cursor := m.cursor + 4 } := by
  have hread := h.operand_of_stands o (by decide) (BigEndian.length_encode 4 _) hstands
  simp only [Runner.offsetOperand, signedOperand, Bind.bind, EStateM.bind, hread,
    decodeSigned_word]
  rfl

theorem lengthOperand (h : r.Loaded program m) (o : Opcode) (htext : text.length < literalLimit)
    (hstands : Stands program m.cursor (BigEndian.encode 2 text.length)) :
    r.lengthOperand o m = .ok text.length { m with cursor := m.cursor + 2 } := by
  have hread := h.operand_of_stands o (by decide) (BigEndian.length_encode 2 _) hstands
  simp only [Runner.lengthOperand, Bind.bind, EStateM.bind, hread, Instruction.decode_length htext]
  rfl

theorem literal (h : r.Loaded program m) (o : Opcode) (hstands : Stands program m.cursor text) :
    r.literal o text.length m = .ok text { m with cursor := m.cursor + text.length } := by
  by_cases htext : text.length = 0
  · obtain rfl := List.length_eq_zero_iff.1 htext
    rfl
  · have hread := h.operand_of_stands o htext rfl hstands
    rw [Runner.literal, if_neg htext]
    exact hread

end Loaded

/-- The text is copied after the block was taken, which leaves the program as it is. -/
theorem Seated.heapLiteral (h : r.Seated World program m) (o : Opcode)
    (hstands : Stands program m.cursor text) :
    r.heapLiteral o text.length m = Exec.stow text m := by
  by_cases htext : text = []
  · subst htext
    rfl
  have hlength : text.length ≠ 0 := fun hzero => htext (List.length_eq_zero_iff.1 hzero)
  have hend := hstands.end_le
  rw [Runner.heapLiteral, if_neg hlength, Exec.stow, if_neg htext]
  simp only [Bind.bind, EStateM.bind, Exec.cursor, h.loaded.locate o hlength, if_neg hend.not_gt,
    Pure.pure, EStateM.pure]
  have hafter := h.reached_onHeap fun _ _ => Heap.preserves_malloc text.length
  cases hmalloc : Exec.onHeap (Heap.malloc text.length) m with
  | error e n => rfl
  | ok addr n =>
    rw [hmalloc] at hafter
    have hread : n.arena.read (r.image.base + m.cursor) text.length = .ok text := by
      have hbytes := hafter.loaded.read hend
      rwa [hstands.take_drop] at hbytes
    have hcopy : Heap.copyIn n.heap n.arena addr (r.image.base + m.cursor) text.length =
        Heap.fill n.heap n.arena addr text := Heap.copyIn_eq_fill hread addr
    simp only [Exec.onHeap, TenantM.self, EStateM.bind, TenantM.updateArena, TenantM.onArena, hcopy]

/-! ### Steps -/

/-- A process identity is popped without a look at the program. -/
theorem Seated.popProcess (h : r.Seated World program m) {id : Nat} {n : Machine σ}
    (hpop : Exec.popProcess m = .ok id n) : r.Seated World program n ∧ n.cursor = m.cursor := by
  have hpopped := h.reached_onStack fun _ _ => Stack.preserves_pop
  have hcursor : (reached (Exec.onStack Stack.pop m)).cursor = m.cursor := by
    rw [Exec.reached_onStack]
  simp only [Exec.popProcess, Exec.pop, Bind.bind, EStateM.bind] at hpop
  cases hres : Exec.onStack Stack.pop m with
  | error e k => simp [hres] at hpop
  | ok v k =>
    rw [hres] at hpopped hcursor
    simp only [hres] at hpop
    cases hid : ProcessId.ofSlot? v with
    | none => simp [hid, run_throw] at hpop
    | some id' =>
      simp only [hid, Pure.pure, EStateM.pure, EStateM.Result.ok.injEq] at hpop
      exact hpop.2 ▸ ⟨hpopped, hcursor⟩

/-- One step from where an instruction was laid out. -/
theorem Seated.step_eq (h : r.Seated World program m) (hdefect : i.defect? = none)
    (hstands : Stands program m.cursor (i.written place)) :
    r.step m = r.enact place m.cursor i m := by
  have hbegin := (h.withCursor (m.cursor + 1)).loaded
  have hoperands := hstands.tail
  rw [h.loaded.step_eq, hstands.head]
  simp only [Opcode.ofByte?_code]
  show r.perform i.opcode m.cursor { m with cursor := m.cursor + 1 } = _
  cases i with
  | plain o => rfl
  | push v =>
    have hread := hbegin.int32Operand .push hoperands
    simp only [perform, Instruction.opcode, Bind.bind, EStateM.bind, hread]
    rfl
  | pushLong v =>
    have hread := hbegin.int64Operand .pushLong hoperands
    simp only [perform, Instruction.opcode, Bind.bind, EStateM.bind, hread, Int64.ofInt_toInt]
    rfl
  | jump target =>
    have hread := hbegin.offsetOperand .jump r.image.length hoperands
    simp only [perform, Instruction.opcode, Bind.bind, EStateM.bind, hread]
    rfl
  | bindAt target =>
    simp only [perform, Instruction.opcode, enact, Bind.bind, EStateM.bind, Exec.jumpTo]
    cases hpop : Exec.popProcess { m with cursor := m.cursor + 1 } with
    | error e n => rfl
    | ok id n =>
      obtain ⟨hn, hcursor⟩ := (h.withCursor (m.cursor + 1)).popProcess hpop
      rw [← show n.cursor = m.cursor + 1 from hcursor] at hoperands
      have hread := hn.loaded.offsetOperand .bindAt (r.image.length - 1) hoperands
      simp only [hread, hcursor]
  | spawn priority name =>
    have hname := Instruction.length_lt_of_defect? hdefect
    have hlength := hoperands.left.right
    have hbytes := hoperands.right
    rw [BigEndian.length_encodeSigned] at hlength
    rw [List.length_append, BigEndian.length_encodeSigned, BigEndian.length_encode] at hbytes
    have hread := hbegin.int32Operand .spawn hoperands.left.left
    have hread' := (hbegin.withCursor (m.cursor + 1 + 4)).lengthOperand .spawn hname hlength
    have hread'' := (hbegin.withCursor (m.cursor + 1 + 4 + 2)).literal .spawn hbytes
    simp only [perform, Instruction.opcode, Bind.bind, EStateM.bind, hread, hread', hread'']
    rfl
  | pushText text =>
    have hlength := hoperands.left
    have hbytes := hoperands.right
    rw [BigEndian.length_encode] at hbytes
    have hread := hbegin.lengthOperand .pushText (Instruction.length_lt_of_defect? hdefect) hlength
    have hstow := (h.withCursor (m.cursor + 1 + 2)).heapLiteral .pushText hbytes
    simp only [perform, Instruction.opcode, Bind.bind, EStateM.bind, hread, hstow]
    rfl

/-- A target that is an offset already stays what it is. -/
theorem enact_resolved (place : String → UInt32) (offset : Nat) (i : Instruction) :
    r.enact place offset (i.resolved place) = r.enact place offset i := by
  cases i <;> rfl

end Runner

/-! ### Whole images -/

namespace Listing

/-- The image of a listing reads, from the first byte to the last, as the instructions of the
listing in their order. A label stands for the offset of the instruction behind it, or of the end.
And that is how the interpreter takes them: where the reading has an instruction, a step of the
interpreter carries out that instruction with those operands. -/
theorem decoded_as_built {l : Listing} {program : List UInt8}
    (hcomplete : ∀ i ∈ l.instructions, i.Complete) (hbuild : l.build = .ok program) :
    ∃ (place : String → UInt32) (walk : List (Nat × Instruction)),
      disassemble? program = some walk ∧
      walk.map Prod.snd = l.instructions.map (Instruction.resolved place) ∧
      (∀ front name rest, l = front ++ .label name :: rest →
        (walk.map Prod.fst ++ [program.length])[(instructions front).length]? =
          some (place name).toNat) ∧
      (∀ i ∈ l.instructions, ∀ name, i.target? = some (.label name) → .label name ∈ l) ∧
      ∀ (σ : Type) (r : Runner σ) World (m : Machine σ), r.Seated World program m →
        ∀ x ∈ walk, m.cursor = x.1 → r.step m = r.enact place x.1 x.2 m := by
  obtain ⟨place, hlaid⟩ := exists_laid hbuild
  refine ⟨place, _, hlaid.disassemble? hcomplete, ?_, ?_, hlaid.targets, ?_⟩
  · rw [List.map_map, ← map_snd_placedFrom l 0, List.map_map]
    rfl
  · rintro front name rest rfl
    rw [hlaid.places front name rest rfl, hlaid.length, List.map_map]
    exact getElem?_offsets front (.label name :: rest)
  · intro σ r World m hm x hx hcursor
    obtain ⟨⟨offset, i⟩, hplaced, rfl⟩ := List.mem_map.1 hx
    have hi : i ∈ l.instructions := by
      rw [← map_snd_placedFrom l 0]
      exact List.mem_map.2 ⟨_, hplaced, rfl⟩
    have hstands := hlaid.stands _ hplaced
    rw [← show m.cursor = offset from hcursor] at hstands ⊢
    rw [Runner.enact_resolved]
    exact hm.step_eq (hlaid.defect i hi) hstands

/-- Jumps back and forth, to the end, and to an offset that no image has. -/
def knot : Listing :=
  [.label "top", .instruction (.spawn (-1) [97]), .instruction (.bindAt (.label "end")),
    .label "middle", .instruction (.pushText []), .instruction (.jump (.label "top")),
    .instruction (.plain .add), .instruction (.jump (.offset 0xfffffffe)),
    .instruction (.jump (.label "middle")), .label "end"]

def knotProgram : List UInt8 :=
  [2, 255, 255, 255, 255, 0, 1, 97, 3, 0, 0, 0, 32, 28, 0, 0, 22, 0, 0, 0, 0, 5,
    22, 255, 255, 255, 254, 22, 0, 0, 0, 13]

theorem decoded_knot :
    (∀ i ∈ knot.instructions, i.Complete) ∧ knot.build = .ok knotProgram ∧
      ∃ (place : String → UInt32) (walk : List (Nat × Instruction)),
        disassemble? knotProgram = some walk ∧
        walk.map Prod.snd = knot.instructions.map (Instruction.resolved place) ∧
        (∀ front name rest, knot = front ++ .label name :: rest →
          (walk.map Prod.fst ++ [knotProgram.length])[(instructions front).length]? =
            some (place name).toNat) ∧
        (∀ i ∈ knot.instructions, ∀ name, i.target? = some (.label name) → .label name ∈ knot) ∧
        ∀ (σ : Type) (r : Runner σ) World (m : Machine σ), r.Seated World knotProgram m →
          ∀ x ∈ walk, m.cursor = x.1 → r.step m = r.enact place x.1 x.2 m := by
  have hcomplete : ∀ i ∈ knot.instructions, i.Complete := by decide
  have hbuild : knot.build = .ok knotProgram := by rfl
  exact ⟨hcomplete, hbuild, decoded_as_built hcomplete hbuild⟩

end Listing

end BytecodeKernel
