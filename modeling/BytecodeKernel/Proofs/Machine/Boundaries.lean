import BytecodeKernel.Proofs.Machine.Decoding
import BytecodeKernel.Proofs.Machine.Faults
import BytecodeKernel.Proofs.Machine.Quanta
import BytecodeKernel.Proofs.Machine.Refinement
import Mathlib.Algebra.Ring.Int.Defs
/-!
Programs whose targets are labels are read as they were written. From the start, or from any label,
the cursor never leaves the offsets at which an instruction was laid out, but for the end of the
program. So no byte is taken for an opcode that was not written as one, no operand is cut short,
and every jump goes where its label is.
-/

namespace BytecodeKernel

variable {σ α : Type}

/-! ### Offsets -/

def Target.IsLabel : Target → Prop
  | label _ => True
  | offset _ => False

instance (target : Target) : Decidable target.IsLabel := by
  cases target <;> simp only [Target.IsLabel] <;> infer_instance

/-- The opcode has its operands, and a target is a label. -/
def Instruction.LabelOnly : Instruction → Prop
  | plain o => o.operandBytes = 0
  | bindAt target | jump target => target.IsLabel
  | _ => True

instance : (i : Instruction) → Decidable i.LabelOnly
  | .plain o => inferInstanceAs (Decidable (o.operandBytes = 0))
  | .bindAt target | .jump target => inferInstanceAs (Decidable target.IsLabel)
  | .push _ | .pushLong _ | .spawn .. | .pushText _ => .isTrue trivial

namespace Listing

variable {l : Listing} {offset n : Nat} {name : String}

/-- Where the instructions start, and where the last one ends. -/
def offsetsFrom (offset : Nat) (l : Listing) : List Nat :=
  (l.placedFrom offset).map Prod.fst ++ [offset + l.size]

theorem start_mem_offsetsFrom (l : Listing) (offset : Nat) : offset ∈ l.offsetsFrom offset :=
  List.mem_of_head? (head?_offsets l offset)

theorem offsetsFrom_instruction (i : Instruction) (rest : Listing) (offset : Nat) :
    offsetsFrom offset (.instruction i :: rest) = offset :: rest.offsetsFrom (offset + i.size) := by
  simp [offsetsFrom, placedFrom, size, Item.size, Nat.add_assoc]

theorem offsetsFrom_label (name : String) (rest : Listing) (offset : Nat) :
    offsetsFrom offset (.label name :: rest) = rest.offsetsFrom offset := by
  simp [offsetsFrom, placedFrom, size, Item.size]

/-- A label is where the next instruction starts. -/
theorem label_mem_offsetsFrom (h : (name, n) ∈ l.labelsFrom offset) : n ∈ l.offsetsFrom offset := by
  induction l generalizing offset with
  | nil => cases h
  | cons item rest ih =>
    cases item with
    | label other =>
      rw [offsetsFrom_label]
      rcases List.mem_cons.1 h with heq | h
      · cases heq
        exact start_mem_offsetsFrom rest _
      · exact ih h
    | instruction i =>
      rw [offsetsFrom_instruction]
      exact List.mem_cons_of_mem _ (ih h)

/-- Behind an instruction another one starts, or the program ends. -/
theorem end_mem_offsetsFrom {i : Instruction} (h : (n, i) ∈ l.placedFrom offset) :
    n + i.size ∈ l.offsetsFrom offset := by
  induction l generalizing offset with
  | nil => cases h
  | cons item rest ih =>
    cases item with
    | label other =>
      rw [offsetsFrom_label]
      exact ih h
    | instruction j =>
      rw [offsetsFrom_instruction]
      rcases List.mem_cons.1 h with heq | h
      · cases heq
        exact List.mem_cons_of_mem _ (start_mem_offsetsFrom rest _)
      · exact List.mem_cons_of_mem _ (ih h)

theorem instruction_of_mem_placed {i : Instruction} (h : (n, i) ∈ l.placed) :
    i ∈ l.instructions := by
  rw [← map_snd_placedFrom l 0]
  exact List.mem_map.2 ⟨_, h, rfl⟩

end Listing

/-! ### What is kept -/

namespace Runner

variable {World : σ → List (Nat × Nat) → Prop} {program : List UInt8} {r : Runner σ}

/-- A host that keeps to its own regions keeps to them with a transcript, too. -/
theorem Discreet.logged (hr : r.Discreet World) : r.logged.Discreet fun s => World s.1 := by
  have hservice {β : Type} {call : HostCall} {reply : β → Nat} {x : HostM σ β}
      (hx : Host.Keeps World r.image.region x) :
      Host.Keeps (fun s : Logged σ => World s.1) r.image.region (Host.logging call reply x) := by
    intro s a mine others hworld howns
    rw [Host.reached_logging]
    exact hx s.1 a mine others hworld howns
  exact ⟨fun s => hr.shared s.1, fun priority name => hservice (hr.spawn priority name),
    fun target entry => hservice (hr.bind target entry),
    fun target => hservice (hr.dispatch target), fun text => hservice (hr.print text)⟩

theorem keeps_seated (hr : r.Discreet World) : r.Keeps (r.Seated World program) := by
  have honHost {β : Type} {x : HostM σ β} (hx : Host.Keeps World r.image.region x) :
      Preserves (r.Seated World program) (Exec.onHost x) := by
    refine .of_reached fun m hm => ?_
    obtain ⟨others, hworld, hmem, howns⟩ := hm.lodged
    obtain ⟨others', hworld', howns', hspares⟩ := hx m.host m.arena
      (m.stack.regions ++ [m.heap.region]) others hworld (by rwa [List.append_assoc])
    rw [Exec.reached_onHost]
    refine ⟨⟨others', hworld', hr.shared _ _ hworld', ?_⟩, hm.bounded,
      hm.holds.of_spares hspares List.mem_cons_self⟩
    rwa [List.append_assoc] at howns'
  have honStack {β : Type} {x : StackM β} (hx : ∀ others a, Preserves (Stack.Home others a) x) :
      Preserves (r.Seated World program) (Exec.onStack x) :=
    .of_reached fun m hm => hm.reached_onStack hx
  have honHeap {β : Type} {x : HeapM β} (hx : ∀ others a, Preserves (Heap.Home others a) x) :
      Preserves (r.Seated World program) (Exec.onHeap x) :=
    .of_reached fun m hm => hm.reached_onHeap hx
  exact ⟨fun _ cursor hm => hm.withCursor cursor,
    fun v => honStack fun _ _ => Stack.preserves_push v,
    honStack fun _ _ => Stack.preserves_pop, honStack fun _ _ => Stack.preserves_popFrame,
    fun size => honHeap fun _ _ => Heap.preserves_malloc size,
    fun dst src length => honHeap fun _ _ => Heap.preserves_copyIn dst src length,
    fun priority name => honHost (hr.spawn priority name),
    fun target entry => honHost (hr.bind target entry), fun target => honHost (hr.dispatch target),
    fun text => honHost (hr.print text)⟩

/-- Only the host's answer to the last request accounts for a fault. -/
theorem blames_logged (r : Runner σ) :
    r.logged.Blames fun e m => ∃ call, m.host.2.getLast? = some ⟨call, .error e⟩ := by
  have hservice {β : Type} (call : HostCall) (reply : β → Nat) (x : HostM σ β)
      (m : Machine (Logged σ)) : Ends (Exec.onHost (Host.logging call reply x) m) (fun _ _ => True)
        fun e n => ∃ call, n.host.2.getLast? = some ⟨call, .error e⟩ := by
    simp only [Exec.onHost, Host.logging]
    cases x (m.host.1, m.arena) with
    | ok v t => trivial
    | error e t => exact ⟨call, List.getLast?_concat⟩
  exact ⟨fun _ _ => hservice _ _ _, fun _ _ => hservice _ _ _, fun _ => hservice _ _ _,
    fun _ => hservice _ _ _⟩

/-- No step of a program opens a frame. -/
theorem keeps_frameless (r : Runner σ) : r.Keeps fun m => m.stack.depth = 0 :=
  r.keeps_shape
    ⟨fun _ _ _ ht => ht, fun _ ht => ht, fun _ _ ht => ht, fun _ ht => congrArg (· - 1) ht⟩

end Runner

/-! ### Steps -/

namespace Listing

variable {l : Listing} {program : List UInt8} {place : String → UInt32} {r : Runner σ}
  {E : Fault → Machine σ → Prop}

/-- A binding of the listing refused its entry, with the cursor behind it. -/
def Refused (l : Listing) (e : Fault) (m : Machine σ) : Prop :=
  ∃ offset target v length, (offset, .bindAt target) ∈ l.placed ∧ e = .invalidJump v length ∧
    m.cursor = offset + 5

/-- An end with the cursor where it belongs, or else a fault that is accounted for. -/
def Follows (l : Listing) (E : Fault → Machine σ → Prop)
    (x : EStateM.Result Fault (Machine σ) α) : Prop :=
  Ends x (fun _ n => n.cursor ∈ l.offsetsFrom 0) fun e n => e.Misread → E e n ∨ l.Refused e n

theorem follows_of_steady {x : Exec σ α} (hx : Steady E x) {m : Machine σ}
    (hcursor : m.cursor ∈ l.offsetsFrom 0) : l.Follows E (x m) :=
  (hx m).weaken (fun _ _ hn => hn ▸ hcursor) fun _ _ he hmisread => .inl (he hmisread)

/-- A text is stowed, and the cursor is behind it. -/
theorem ends_stow (text : List UInt8) (m : Machine σ) :
    Ends (Exec.stow text m) (fun _ n => n.cursor = m.cursor + text.length)
      fun e n => e.Misread → E e n := by
  rw [Exec.stow]
  split
  · rename_i hempty
    exact congrArg (m.cursor + ·) (congrArg List.length hempty).symm
  · refine (Steady.onHeap _ m).bind fun addr n hn => (Steady.onHeap _ n).bind fun _ k hk => ?_
    exact congrArg (· + text.length) (hk.trans hn)

theorem Laid.toNat_place_le (h : l.Laid program place) {name : String} (hname : .label name ∈ l) :
    ∃ front rest, l = front ++ .label name :: rest ∧ (place name).toNat = size front ∧
      size front ≤ program.length := by
  obtain ⟨front, rest, rfl⟩ := List.append_of_mem hname
  refine ⟨front, rest, rfl, h.places front name rest rfl, ?_⟩
  rw [h.length, size_append]
  exact Nat.le_add_right _ _

/-- The offset of a label is admitted as a target. -/
theorem Laid.permit (h : l.Laid program place) (hsize : program.length < 2 ^ 31)
    (hlength : program.length = r.image.length) {name : String} (hname : .label name ∈ l)
    (m : Machine σ) : r.permit (place name) r.image.length m = .ok (place name).toNat m := by
  obtain ⟨front, rest, -, hplace, hle⟩ := h.toNat_place_le hname
  have hint : (place name).toInt32.toInt = (place name).toNat :=
    BitVec.toInt_eq_toNat_of_lt (show 2 * (place name).toNat < 2 ^ 32 by omega)
  rw [Runner.permit]
  simp only [hint]
  rw [if_pos ⟨by omega, by omega⟩]
  rfl

theorem Laid.place_mem_offsets (h : l.Laid program place) {name : String}
    (hname : .label name ∈ l) : (place name).toNat ∈ l.offsetsFrom 0 := by
  obtain ⟨front, rest, rfl, hplace, -⟩ := h.toNat_place_le hname
  have hmem := List.mem_of_getElem? (getElem?_offsets front (.label name :: rest))
  rwa [hplace, offsetsFrom, Nat.zero_add]

/-- A target that is not admitted is a fault where the cursor is. -/
theorem ends_permit (word : UInt32) (last : Int) (m : Machine σ) :
    Ends (r.permit word last m) (fun _ n => n = m)
      fun e n => n = m ∧ ∃ v length, e = .invalidJump v length := by
  rw [Runner.permit]
  split
  · exact rfl
  · exact ⟨rfl, _, _, rfl⟩

/-- One instruction of a listing. -/
theorem Laid.follows_enact (h : l.Laid program place) (hlabels : ∀ i ∈ l.instructions, i.LabelOnly)
    (hsize : program.length < 2 ^ 31) (hlength : program.length = r.image.length)
    (hr : r.Blames E) {offset : Nat} {i : Instruction} (hmem : (offset, i) ∈ l.placed)
    (m : Machine σ) : l.Follows E (r.enact place offset i m) := by
  have hi := instruction_of_mem_placed hmem
  have hnext : offset + i.size ∈ l.offsetsFrom 0 := end_mem_offsetsFrom hmem
  have hlabel := hlabels i hi
  cases i with
  | plain o =>
    exact follows_of_steady (m := { m with cursor := offset + 1 }) (.perform hr hlabel _) hnext
  | push v =>
    exact follows_of_steady (m := { m with cursor := offset + 5 })
      (.bind (.push _) fun _ => .pure _) hnext
  | pushLong v =>
    exact follows_of_steady (m := { m with cursor := offset + 9 })
      (.bind (.push _) fun _ => .pure _) hnext
  | spawn priority name =>
    have hdefect := h.defect _ hi
    have hshort : name.length < literalLimit := Instruction.length_lt_of_defect? hdefect
    rw [Instruction.size, if_pos hshort, ← Nat.add_assoc] at hnext
    exact follows_of_steady (m := { m with cursor := offset + 7 + name.length })
      (.bind (.onHost (hr.spawn _ _)) fun child => .bind (.push _) fun _ => .pure _) hnext
  | pushText text =>
    have hshort := Instruction.length_lt_of_defect? (h.defect _ hi)
    rw [Instruction.size, if_pos hshort, ← Nat.add_assoc] at hnext
    have hstow := ends_stow (E := E) text { m with cursor := offset + 3 }
    refine (hstow.weaken (fun _ _ hn => hn) fun _ _ he hmisread => .inl (he hmisread)).bind ?_
    intro addr n hn
    exact follows_of_steady (.bind (.push _) fun _ => .pure _) (hn ▸ hnext)
  | jump target =>
    cases target with
    | offset n => exact hlabel.elim
    | label name =>
      have hname := h.targets _ hi name rfl
      have hpermit := h.permit (r := r) hsize hlength hname { m with cursor := offset + 5 }
      refine Ends.of_ok (s := { m with cursor := offset + 5 }) hpermit ?_
      exact h.place_mem_offsets hname
  | bindAt target =>
    refine ((Steady.popProcess (E := E) { m with cursor := offset + 1 }).weaken (fun _ _ hn => hn)
      fun _ _ he hmisread => .inl (he hmisread)).bind fun id n hn => ?_
    refine Ends.bind (s := { n with cursor := offset + 5 })
      (Q := fun _ k => k.cursor = offset + 5) ?_ fun entry k hk => ?_
    · refine (ends_permit _ _ _).weaken (fun _ _ hk => congrArg Machine.cursor hk) ?_
      rintro e k ⟨rfl, v, length, rfl⟩ -
      exact .inr ⟨offset, target, v, length, hmem, rfl, rfl⟩
    · exact follows_of_steady (.bind (.onHost (hr.bind _ _)) fun _ => .pure _) (hk ▸ hnext)

/-! ### Runs -/

/-- A machine on a program that is followed so far: no frame is open, and the cursor is where an
instruction starts or the program ends. -/
structure Following (l : Listing) (r : Runner σ) (World : σ → List (Nat × Nat) → Prop)
    (program : List UInt8) (m : Machine σ) : Prop where
  seated : r.Seated World program m
  frameless : m.stack.depth = 0
  cursor : m.cursor ∈ l.offsetsFrom 0

variable {World : σ → List (Nat × Nat) → Prop} {m : Machine σ}

/-- What is needed of a listing, its image, and who runs it. -/
structure Readable (l : Listing) (place : String → UInt32) (r : Runner σ)
    (World : σ → List (Nat × Nat) → Prop) (program : List UInt8) (E : Fault → Machine σ → Prop) :
    Prop where
  laid : l.Laid program place
  labels : ∀ i ∈ l.instructions, i.LabelOnly
  small : program.length < 2 ^ 31
  discreet : r.Discreet World
  blames : r.Blames E

/-- Both ends of an action that is followed. -/
def Continues (l : Listing) (r : Runner σ) (World : σ → List (Nat × Nat) → Prop)
    (program : List UInt8) (E : Fault → Machine σ → Prop)
    (x : EStateM.Result Fault (Machine σ) α) : Prop :=
  Ends x (fun _ n => l.Following r World program n) fun e n => e.Misread → E e n ∨ l.Refused e n

/-- Before the end an instruction starts where the cursor is, and is carried out. -/
theorem Readable.step (h : l.Readable place r World program E)
    (hm : l.Following r World program m) (hbefore : m.cursor < program.length) :
    l.Continues r World program E (r.step m) := by
  obtain ⟨⟨offset, i⟩, hplaced, hoffset⟩ : ∃ x ∈ l.placed, x.1 = m.cursor := by
    rcases List.mem_append.1 hm.cursor with hstart | hend
    · exact List.mem_map.1 hstart
    · have heq := List.mem_singleton.1 hend
      rw [Nat.zero_add, ← h.laid.length] at heq
      exact absurd heq hbefore.ne
  obtain rfl : offset = m.cursor := hoffset
  have hdefect := h.laid.defect i (instruction_of_mem_placed hplaced)
  have hfollows := h.laid.follows_enact h.labels h.small hm.seated.loaded.length h.blames hplaced m
  have hseated := ((Runner.keeps_seated h.discreet).step).reached hm.seated
  have hframeless := (r.keeps_frameless.step).reached hm.frameless
  rw [← hm.seated.step_eq hdefect (h.laid.stands _ hplaced)] at hfollows
  cases hstep : r.step m with
  | ok ended n =>
    rw [hstep] at hfollows hseated hframeless
    exact ⟨hseated, hframeless, hfollows⟩
  | error e n =>
    rw [hstep] at hfollows
    exact hfollows

theorem Readable.run (h : l.Readable place r World program E)
    (hm : l.Following r World program m) (budget : Nat) :
    l.Continues r World program E (r.run budget m) := by
  induction budget generalizing m with
  | zero =>
    rw [Runner.run_zero]
    exact hm
  | succ budget ih =>
    rw [Runner.run_next, hm.frameless]
    show l.Continues r World program E (if _ then _ else _)
    split
    · exact hm
    · rename_i hbefore
      rw [← hm.seated.loaded.length, Nat.not_le] at hbefore
      have hstep := h.step hm hbefore
      cases hres : r.step m with
      | error e n =>
        rw [hres] at hstep
        exact hstep
      | ok ended n =>
        rw [hres] at hstep
        cases ended with
        | some outcome => exact hstep
        | none => exact ih hstep

end Listing

namespace Runner

/-- Runs for one budget after the other, each from where the one before left off, until one ends in
a fault. -/
def quanta (r : Runner σ) : List Nat → Exec σ Unit
  | [] => pure ()
  | budget :: rest => do
    let _ ← r.run budget
    quanta r rest

/-- The last request of such runs was answered with this fault. -/
def Rebuffed (r : Runner σ) (budgets : List Nat) (m : Machine σ) (e : Fault) : Prop :=
  ∃ call, (reached (r.logged.quanta budgets m.recording)).host.2.getLast? = some ⟨call, .error e⟩

theorem mirrors_quanta (r : Runner σ) (budgets : List Nat) :
    Mirrors (r.logged.quanta budgets) (r.quanta budgets) := by
  induction budgets with
  | nil => exact .pure ()
  | cons budget rest ih => exact .bind (.run r budget) fun _ => ih

end Runner

namespace Listing

variable {l : Listing} {program : List UInt8} {place : String → UInt32} {r : Runner σ}
  {E : Fault → Machine σ → Prop} {World : σ → List (Nat × Nat) → Prop} {m : Machine σ}

theorem Readable.quanta (h : l.Readable place r World program E)
    (hm : l.Following r World program m) (budgets : List Nat) :
    l.Continues r World program E (r.quanta budgets m) := by
  induction budgets generalizing m with
  | nil => exact hm
  | cons budget rest ih => exact (h.run hm budget).bind fun _ n hn => ih hn

/-- From the start of a listing whose targets are labels, or from one of its labels, on a stack
without frames: after any runs the cursor is where an instruction starts or the program ends. Runs
that fail, unless the host gave the fault for its answer, do not fail for want of an opcode or of
operands, nor by a jump, for where a target was refused the cursor is behind a binding. -/
theorem followed_from_labels (hbuild : l.build = .ok program)
    (hlabels : ∀ i ∈ l.instructions, i.LabelOnly) (hsmall : program.length < 2 ^ 31)
    (hr : r.Discreet World) (hm : r.Seated World program m) (hframeless : m.stack.depth = 0)
    (hentry : m.cursor = 0 ∨ ∃ name, (name, m.cursor) ∈ l.labels) (budgets : List Nat) :
    (∀ n, r.quanta budgets m = .ok () n →
      (∃ i, (n.cursor, i) ∈ l.placed) ∨ n.cursor = program.length) ∧
    ∀ e n, r.quanta budgets m = .error e n → ¬ r.Rebuffed budgets m e →
      (∀ byte offset, e ≠ .unknownOpcode byte offset) ∧
      (∀ o offset, e ≠ .unexpectedEnd o offset) ∧
      ∀ v length, e = .invalidJump v length →
        ∃ offset target, (offset, .bindAt target) ∈ l.placed ∧ n.cursor = offset + 5 := by
  obtain ⟨place, hlaid⟩ := exists_laid hbuild
  have hreadable : l.Readable place r.logged (fun s => World s.1) program
      fun e n => ∃ call, n.host.2.getLast? = some ⟨call, .error e⟩ :=
    ⟨hlaid, hlabels, hsmall, hr.logged, r.blames_logged⟩
  have hcursor : m.cursor ∈ l.offsetsFrom 0 := by
    rcases hentry with hzero | ⟨name, hlabel⟩
    · rw [hzero]
      exact start_mem_offsetsFrom l 0
    · exact label_mem_offsetsFrom hlabel
  have hbegin : l.Following r.logged (fun s => World s.1) program m.recording :=
    ⟨⟨hm.lodged, hm.bounded, hm.holds⟩, hframeless, hcursor⟩
  have hend := hreadable.quanta hbegin budgets
  have hforget : forgetEnd (r.logged.quanta budgets m.recording) = r.quanta budgets m :=
    r.mirrors_quanta budgets m.recording
  simp only [Runner.Rebuffed]
  rw [← hforget]
  cases hres : r.logged.quanta budgets m.recording with
  | ok _ k =>
    rw [hres] at hend
    refine ⟨fun n hn => ?_, fun e n hn => (nomatch hn)⟩
    cases hn
    rcases List.mem_append.1 hend.cursor with hstart | hlast
    · obtain ⟨⟨offset, i⟩, hplaced, heq⟩ := List.mem_map.1 hstart
      exact .inl ⟨i, heq ▸ hplaced⟩
    · rw [hlaid.length, ← Nat.zero_add l.size]
      exact .inr (List.mem_singleton.1 hlast)
  | error e k =>
    rw [hres] at hend
    refine ⟨fun n hn => (nomatch hn), fun e n hn hown => ?_⟩
    cases hn
    have hrefused (hmisread : e.Misread) : l.Refused e k := (hend hmisread).resolve_left hown
    refine ⟨?_, ?_, ?_⟩
    · rintro byte offset rfl
      obtain ⟨_, _, _, _, _, hne, _⟩ := hrefused trivial
      contradiction
    · rintro o offset rfl
      obtain ⟨_, _, _, _, _, hne, _⟩ := hrefused trivial
      contradiction
    · rintro v length rfl
      obtain ⟨offset, target, _, _, hplaced, -, hbehind⟩ := hrefused trivial
      exact ⟨offset, target, hplaced, hbehind⟩

/-- Says hello over and over. -/
def carol : Listing :=
  [.instruction (.push (-3)), .label "verse", .instruction (.pushText [104, 105]),
    .instruction (.plain .print), .instruction (.jump (.label "verse")), .label "end"]

def carolProgram : List UInt8 :=
  [0, 255, 255, 255, 253, 28, 0, 2, 104, 105, 29, 22, 0, 0, 0, 5]

def carolRunner : Runner Recorder where
  origin := 0
  image := { base := 1, length := 16, entry := 0 }
  host := Recorder.host "no room"

/-- The program, then a heap, and a stack that is empty. -/
def carolMachine : Machine Recorder where
  heap := { base := 17, size := 64, blocks := .ofSize 1 64 }
  stack := { base := 81, size := 64, initialSize := 64 }
  cursor := 5
  arena := { Arena.ofCapacity 4096 with
    store := ({} : ByteStore).write 1 carolProgram
    blocks := ⟨1, [.live 16, .live 64, .live 64, .free 3952]⟩ }
  host := { nextChild := 1, childrenLeft := 0 }

theorem seated_carol :
    carolRunner.Seated (fun _ others => (1, 16) ∈ others) carolProgram carolMachine where
  lodged := by
    have htidy : Segment.Tidy carolMachine.arena.blocks.segments :=
      ⟨by decide, by simp [carolMachine, Segment.isFree]⟩
    refine ⟨[(1, 16)], List.mem_singleton_self _, List.mem_singleton_self _,
      ⟨rfl, htidy, rfl, by decide, by decide⟩, ?_⟩
    decide
  bounded := ⟨by decide, by decide⟩
  holds := by
    show carolMachine.arena.store.read 1 16 = carolProgram
    decide +kernel

/-- From its label on, the text is printed for as long as the budgets last. -/
theorem followed_carol :
    carol.build = .ok carolProgram ∧ (∀ i ∈ carol.instructions, i.LabelOnly) ∧
      carolProgram.length < 2 ^ 31 ∧
      carolRunner.Discreet (fun _ others => (1, 16) ∈ others) ∧
      carolRunner.Seated (fun _ others => (1, 16) ∈ others) carolProgram carolMachine ∧
      carolMachine.stack.depth = 0 ∧
      (carolMachine.cursor = 0 ∨ ∃ name, (name, carolMachine.cursor) ∈ carol.labels) ∧
      (∀ n, carolRunner.quanta [2, 0, 9] carolMachine = .ok () n →
        (∃ i, (n.cursor, i) ∈ carol.placed) ∨ n.cursor = carolProgram.length) ∧
      (∀ e, ¬ carolRunner.Rebuffed [2, 0, 9] carolMachine e) ∧
      ∀ e n, carolRunner.quanta [2, 0, 9] carolMachine = .error e n →
        (∀ byte offset, e ≠ .unknownOpcode byte offset) ∧
        (∀ o offset, e ≠ .unexpectedEnd o offset) ∧
        ∀ v length, e = .invalidJump v length →
          ∃ offset target, (offset, .bindAt target) ∈ carol.placed ∧ n.cursor = offset + 5 := by
  have hbuild : carol.build = .ok carolProgram := by rfl
  have hlabels : ∀ i ∈ carol.instructions, i.LabelOnly := by decide
  have hsmall : carolProgram.length < 2 ^ 31 := by decide
  have hdiscreet : carolRunner.Discreet (fun _ others => (1, 16) ∈ others) :=
    Recorder.discreet 0 carolRunner.image "no room"
  have hentry : carolMachine.cursor = 0 ∨ ∃ name, (name, carolMachine.cursor) ∈ carol.labels :=
    .inr ⟨"verse", by decide⟩
  obtain ⟨hends, hfaults⟩ :=
    followed_from_labels hbuild hlabels hsmall hdiscreet seated_carol rfl hentry [2, 0, 9]
  have hlast :
      (reached (carolRunner.logged.quanta [2, 0, 9] carolMachine.recording)).host.2.getLast? =
        some ⟨.print 0 "hi", .ok 0⟩ := by decide +kernel
  have hown (e : Fault) : ¬ carolRunner.Rebuffed [2, 0, 9] carolMachine e := by
    rintro ⟨call, hcall⟩
    have hanswer := hlast.symm.trans hcall
    simp at hanswer
  exact ⟨hbuild, hlabels, hsmall, hdiscreet, seated_carol, rfl, hentry, hends, hown,
    fun e n herror => hfaults e n herror (hown e)⟩

end Listing

end BytecodeKernel
