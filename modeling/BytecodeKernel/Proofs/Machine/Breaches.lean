import BytecodeKernel.Proofs.Machine.Isolation
import BytecodeKernel.Proofs.Machine.Literals
import BytecodeKernel.Proofs.Machine.Upkeep
/-!
The checks that no program gets to. The arena, the heap and the stack look at every address, size
and frame they are given, and the interpreter at every target. Of these checks only two ever refuse
anything in a run: that of a pointer that is printed, and that of the operand of a jump or a
binding. The machine without memory has no others, and the interpreter does what that machine does
or runs short of memory.
-/

namespace BytecodeKernel

variable {σ α β H : Type}

/-- What a check of an address, a size, a frame or a target finds. To run short of memory is no
breach. -/
def Fault.IsBreach : Fault → Prop
  | .memory e => ¬ e.IsShortage
  | .frameOverflow _ | .frameUnderflow | .invalidLocal _ | .invalidJump .. => True
  | _ => False

/-- The breaches that the instruction at an offset of a program may commit. -/
inductive Fault.Due (program : List UInt8) (offset : Nat) : Fault → Prop where
  | forged (addr : Nat) : program[offset]? = some Opcode.print.code →
      Due program offset (.memory (.invalidPointer addr))
  | outside {bytes : List UInt8} :
      program[offset]? = some Opcode.jump.code ∨ program[offset]? = some Opcode.bindAt.code →
      BigEndian.word? program (offset + 1) 4 = some bytes →
      ¬ (0 ≤ BigEndian.decodeSigned bytes ∧ BigEndian.decodeSigned bytes < program.length) →
      Due program offset (.invalidJump (BigEndian.decodeSigned bytes) program.length)

theorem Fault.not_isBreach_of_isShortage {e : Fault} (h : e.IsShortage) : ¬ e.IsBreach := by
  cases e with
  | memory e => exact not_not.2 h
  | _ => exact h.elim

/-- Where no breach is committed, there is none to account for. -/
theorem Ends.excuse {τ : Type} {x : EStateM.Result Fault τ α} {Q : α → τ → Prop}
    (h : Ends x Q fun e _ => ¬ e.IsBreach) {P : Fault → Prop} :
    Ends x Q fun e _ => e.IsBreach → P e :=
  h.weaken (fun _ _ hv => hv) fun _ _ he hbreach => absurd hbreach he

/-! ### Without memory -/

namespace Ideal

/-- The action commits no breach, from wherever it starts. -/
def Clean (y : IdealM H α) : Prop :=
  ∀ i, Ends (y i) (fun _ _ => True) fun e _ => ¬ e.IsBreach

namespace Clean

theorem pure (v : α) : Clean (pure v : IdealM H α) :=
  fun _ => trivial

theorem throw {e : Fault} (h : ¬ e.IsBreach) : Clean (throw e : IdealM H α) :=
  fun _ => h

theorem bind {y : IdealM H α} {f : α → IdealM H β} (hy : Clean y) (hf : ∀ v, Clean (f v)) :
    Clean (y >>= f) :=
  fun i => (hy i).bind fun v j _ => hf v j

theorem ite {c : Prop} [Decidable c] {x y : IdealM H α} (hx : Clean x) (hy : Clean y) :
    Clean (if c then x else y) := by
  split
  · exact hx
  · exact hy

theorem push (v : Int64) : Clean (push v : IdealM H Unit) :=
  fun _ => trivial

theorem skip (count : Nat) : Clean (skip count : IdealM H Unit) :=
  fun _ => trivial

theorem jumpTo (cursor : Nat) : Clean (jumpTo cursor : IdealM H Unit) :=
  fun _ => trivial

end Clean

/-- A pop moves neither the cursor nor the heap. -/
theorem ends_pop (i : Ideal H) :
    Ends (pop i) (fun _ j => j.cursor = i.cursor ∧ j.heap = i.heap) fun e _ => ¬ e.IsBreach := by
  rw [pop]
  cases i.operands with
  | nil => exact id
  | cons v rest => exact ⟨rfl, rfl⟩

theorem ends_popProcess (i : Ideal H) :
    Ends (popProcess i) (fun _ j => j.cursor = i.cursor) fun e _ => ¬ e.IsBreach := by
  refine (ends_pop i).bind fun v j hj => ?_
  cases ProcessId.ofSlot? v with
  | some id => exact hj.1
  | none => exact id

namespace Clean

theorem pop : Clean (pop : IdealM H Int64) :=
  fun i => (ends_pop i).weaken (fun _ _ _ => trivial) fun _ _ he => he

theorem popProcess : Clean (popProcess : IdealM H Nat) :=
  fun i => (ends_popProcess i).weaken (fun _ _ _ => trivial) fun _ _ he => he

theorem binary (f : Int64 → Int64 → Int64) : Clean (binary f : IdealM H Unit) :=
  bind pop fun _ => bind pop fun _ => push _

theorem divide (offset : Nat) (f : Int64 → Int64 → Int64) :
    Clean (divide offset f : IdealM H Unit) :=
  bind pop fun _ => bind pop fun _ => ite (bind (throw id) fun _ => push _) (push _)

end Clean

namespace Setting

variable {g : Setting H}

/-- The bytes ahead are as many as were asked for. -/
theorem ends_ahead (o : Opcode) (width : Nat) (i : Ideal H) :
    Ends (g.ahead o width i)
      (fun bytes j => BigEndian.word? g.program i.cursor width = some bytes ∧ j = i)
      fun e _ => ¬ e.IsBreach := by
  rw [ahead_eq_word?]
  cases hword : BigEndian.word? g.program i.cursor width with
  | none => exact id
  | some bytes => exact ⟨rfl, rfl⟩

theorem ends_operand (o : Opcode) (width : Nat) (i : Ideal H) :
    Ends (g.operand o width i)
      (fun bytes _ => BigEndian.word? g.program i.cursor width = some bytes)
      fun e _ => ¬ e.IsBreach :=
  (ends_ahead o width i).bind fun _ _ hbytes => hbytes.1

theorem clean_operand (o : Opcode) (width : Nat) : Clean (g.operand o width) :=
  fun i => (ends_operand o width i).weaken (fun _ _ _ => trivial) fun _ _ he => he

theorem clean_signedOperand (o : Opcode) (width : Nat) : Clean (g.signedOperand o width) :=
  .bind (clean_operand o width) fun _ => .pure _

theorem clean_lengthOperand (o : Opcode) : Clean (g.lengthOperand o) :=
  .bind (clean_operand o 2) fun _ => .pure _

theorem clean_literal (o : Opcode) (length : Nat) : Clean (g.literal o length) :=
  .ite (.pure _) (clean_operand o length)

theorem clean_checkCall : Clean g.checkCall :=
  .bind .pop fun _ => .ite (.throw id) (.pure _)

/-- The only breach is a target that is refused, and the target is the operand. -/
theorem ends_offsetOperand (o : Opcode) (last : Int) (i : Ideal H) :
    Ends (g.offsetOperand o last i) (fun _ _ => True) fun e _ => e.IsBreach →
      ∃ bytes, BigEndian.word? g.program i.cursor 4 = some bytes ∧
        ¬ (0 ≤ BigEndian.decodeSigned bytes ∧ BigEndian.decodeSigned bytes ≤ last) ∧
        e = .invalidJump (BigEndian.decodeSigned bytes) g.program.length := by
  have hsigned : Ends (g.signedOperand o 4 i)
      (fun v _ => ∃ bytes, BigEndian.word? g.program i.cursor 4 = some bytes ∧
        v = BigEndian.decodeSigned bytes) fun e _ => ¬ e.IsBreach :=
    (ends_operand o 4 i).bind fun bytes _ hbytes => ⟨bytes, hbytes, rfl⟩
  refine hsigned.excuse.bind ?_
  rintro v j ⟨bytes, hbytes, rfl⟩
  split
  · trivial
  · rename_i hrange
    exact fun _ => ⟨bytes, hbytes, hrange, rfl⟩

/-- The shelf refuses a text only for want of room and an address only because nothing is there, and
the oracle answers no request with a breach. -/
structure Fair (g : Setting H) (i : Ideal H) : Prop where
  store : ∀ bytes heap e, bytes ≠ [] → g.shelf.store bytes heap = .error e → e.IsShortage
  fetch : ∀ addr e, g.shelf.fetch i.heap addr = .error e → ∃ forged, e = .invalidPointer forged
  oracle : ∀ past call e, g.oracle past call = .error e → ¬ e.IsBreach

variable {i : Ideal H}

theorem Fair.clean_ask (hg : g.Fair i) (call : HostCall) : Clean (g.ask call) := by
  intro j
  rw [ask]
  cases hreply : g.oracle j.calls call with
  | ok reply => trivial
  | error e => exact hg.oracle _ _ e hreply

theorem Fair.clean_request (hg : g.Fair i) (call : HostCall) : Clean (g.request call) :=
  .bind (hg.clean_ask call) fun _ => .pure _

theorem Fair.clean_heapLiteral (hg : g.Fair i) (o : Opcode) (length : Nat) :
    Clean (g.heapLiteral o length) := by
  intro j
  rw [heapLiteral]
  split
  · trivial
  · rename_i hlength
    refine (ends_ahead o length j).bind fun bytes k hbytes => ?_
    have hne : bytes ≠ [] := by
      have hsize := BigEndian.length_of_word? hbytes.1
      rintro rfl
      exact hlength hsize.symm
    refine Clean.bind (fun l => ?_) (fun addr => .bind (.skip length) fun _ => .pure addr) k
    rw [Setting.store]
    cases hstore : g.shelf.store bytes l.heap with
    | ok result => trivial
    | error e => exact not_not.2 (hg.store bytes l.heap e hne hstore)

theorem Fair.ends_popText (hg : g.Fair i) :
    Ends (g.popText i) (fun _ _ => True) fun e _ => e.IsBreach →
      ∃ addr, e = .memory (.invalidPointer addr) := by
  refine (ends_pop i).excuse.bind ?_
  rintro v j ⟨-, hheap⟩
  cases Address.ofSlot? v with
  | none => exact fun _ => ⟨_, rfl⟩
  | some addr =>
    simp only
    split
    · trivial
    · refine Ends.bind (Q := fun _ _ => True) ?_ fun _ _ _ => trivial
      rw [Setting.fetch, hheap]
      cases hfetch : g.shelf.fetch i.heap addr with
      | ok bytes => trivial
      | error e =>
        obtain ⟨forged, rfl⟩ := hg.fetch addr e hfetch
        exact fun _ => ⟨forged, rfl⟩

theorem Fair.ends_perform (hg : g.Fair i) {o : Opcode} {offset : Nat}
    (hcode : g.program[offset]? = some o.code) (hcursor : i.cursor = offset + 1) :
    Ends (g.perform o offset i) (fun _ _ => True)
      fun e _ => e.IsBreach → e.Due g.program offset := by
  have hdone {x : IdealM H Unit} (hx : Clean x) :
      Clean (do x; return none : IdealM H (Option Outcome)) :=
    .bind hx fun _ => .pure none
  have htarget {o : Opcode} {last : Int} (hat : g.program[offset]? = some Opcode.jump.code ∨
      g.program[offset]? = some Opcode.bindAt.code) (hlast : (g.program.length : Int) - 1 ≤ last)
      {j : Ideal H} (hj : j.cursor = offset + 1) : Ends (g.offsetOperand o last j) (fun _ _ => True)
        fun e _ => e.IsBreach → e.Due g.program offset := by
    refine (ends_offsetOperand o last j).weaken (fun _ _ hv => hv) fun e _ he hbreach => ?_
    obtain ⟨bytes, hbytes, hrange, rfl⟩ := he hbreach
    rw [hj] at hbytes
    exact .outside hat hbytes fun hin => hrange ⟨hin.1, by omega⟩
  have hclean {x : IdealM H (Option Outcome)} (hx : Clean x) (j : Ideal H) :
      Ends (x j) (fun _ _ => True) fun e _ => e.IsBreach → e.Due g.program offset :=
    (hx j).excuse
  -- Three instructions have a check that may refuse, the others have none.
  cases o with
  | jump =>
    refine (htarget (.inl hcode) (by omega) hcursor).bind fun target j _ => ?_
    exact hclean (hdone (.jumpTo target)) j
  | bindAt =>
    refine (ends_popProcess i).excuse.bind fun target j hj => ?_
    refine (htarget (.inr hcode) le_rfl (hj.trans hcursor)).bind fun entry k _ => ?_
    exact hclean (hdone (hg.clean_request _)) k
  | print =>
    have htext : Ends (g.popText i) (fun _ _ => True)
        fun e _ => e.IsBreach → e.Due g.program offset := by
      refine hg.ends_popText.weaken (fun _ _ hv => hv) fun e _ he hbreach => ?_
      obtain ⟨addr, rfl⟩ := he hbreach
      exact .forged addr hcode
    exact htext.bind fun text j _ => hclean (hdone (hg.clean_request _)) j
  | push | pushLong =>
    exact hclean (.bind (clean_signedOperand _ _) fun _ => hdone (.push _)) i
  | spawn =>
    refine hclean (.bind (clean_signedOperand _ _) fun priority => ?_) i
    refine .bind (clean_lengthOperand _) fun length => .bind (clean_literal _ length) fun name => ?_
    exact .bind (hg.clean_ask _) fun child => hdone (.push _)
  | dispatch => exact hclean (.bind .popProcess fun _ => hdone (hg.clean_request _)) i
  | div | mod => exact hclean (hdone (.divide _ _)) i
  | bitNot => exact hclean (.bind .pop fun _ => hdone (.push _)) i
  | storeLocal | loadLocal | deref | arrayRef => exact hclean (hdone (.pure ())) i
  | branch | drop => exact hclean (.bind .pop fun _ => .pure none) i
  | pushText =>
    refine hclean (.bind (clean_lengthOperand _) fun length => ?_) i
    exact .bind (hg.clean_heapLiteral _ length) fun _ => hdone (.push _)
  | call => exact hclean (hdone clean_checkCall) i
  | halt => exact hclean (.bind .pop fun _ => .pure _) i
  | _ => exact hclean (hdone (.binary _)) i

/-- One instruction of the program, whatever its bytes are. -/
theorem Fair.ends_step (hg : g.Fair i) (hbefore : i.cursor < g.program.length) :
    Ends (g.step i) (fun _ _ => True) fun e _ => e.IsBreach → e.Due g.program i.cursor := by
  have hbyte := List.getElem?_eq_getElem hbefore
  rw [step_eq, hbyte]
  cases ho : Opcode.ofByte? g.program[i.cursor] with
  | none =>
    simp only [ho]
    exact False.elim
  | some o =>
    simp only [ho]
    rw [← Opcode.code_eq_of_ofByte? ho] at hbyte
    have hmoved : g.Fair { i with cursor := i.cursor + 1 } := ⟨hg.store, hg.fetch, hg.oracle⟩
    exact hmoved.ends_perform hbyte rfl

end Setting

end Ideal

/-! ### With memory -/

/-- The same instructions are begun whether a transcript is kept or not. -/
theorem Runner.map_forget_visits (r : Runner σ) (budget : Nat) (m : Machine (Logged σ)) :
    (r.logged.visits budget m).map Machine.forget = r.visits budget m.forget := by
  induction budget generalizing m with
  | zero => rfl
  | succ budget ih =>
    have hunwind := Mirrors.unwind r m.stack.depth m
    rw [visits, visits, show m.forget.stack.depth = m.stack.depth from rfl, ← hunwind]
    cases r.logged.unwind m.stack.depth m with
    | error e n => rfl
    | ok _ n =>
      by_cases hend : r.image.length ≤ n.cursor
      · have hforget : r.image.length ≤ n.forget.cursor := hend
        have hlogged : r.logged.image.length ≤ n.cursor := hend
        simp only [forgetEnd, if_pos hforget, if_pos hlogged, List.map_nil]
      · have hforget : ¬ r.image.length ≤ n.forget.cursor := hend
        have hlogged : ¬ r.logged.image.length ≤ n.cursor := hend
        simp only [forgetEnd, if_neg hforget, if_neg hlogged, List.map_cons, ← Mirrors.step r n]
        cases r.logged.step n with
        | error e k => rfl
        | ok ended k =>
          cases ended with
          | none => exact congrArg (n.forget :: ·) (ih k)
          | some outcome => rfl

namespace Bridge

variable {b : Bridge σ H} {m n : Machine (Logged σ)} {i : Ideal H} {budget : Nat} {e : Fault}

/-- A run that fails does so in the last instruction that it begins. -/
theorem Going.last_visit (h : b.Going m i) (herror : b.runner.logged.run budget m = .error e n)
    (hanswers : b.setting.Answers b.past n.host.2) :
    ∃ front p j, b.runner.logged.visits budget m = front ++ [p] ∧ b.Going p j ∧
      p.cursor < b.runner.image.length ∧ b.runner.logged.step p = .error e n := by
  induction budget generalizing m i with
  | zero =>
    rw [Runner.run_zero] at herror
    contradiction
  | succ budget ih =>
    obtain ⟨k, hunwind, hdepicts, hhost⟩ := h.toDepicts.unwind
    rw [Runner.run_next, hunwind] at herror
    by_cases hend : b.runner.logged.image.length ≤ k.cursor
    · simp only [if_pos hend] at herror
      contradiction
    · simp only [if_neg hend] at herror
      rw [Runner.visits, hunwind]
      simp only [if_neg hend]
      have hgoing : b.Going k _ := ⟨hdepicts, hhost ▸ h.granted⟩
      cases hstep : b.runner.logged.step k with
      | error e' k' =>
        rw [hstep] at herror
        cases herror
        exact ⟨[], k, _, rfl, hgoing, Nat.not_le.1 hend, hstep⟩
      | ok ended k' =>
        rw [hstep] at herror
        cases ended with
        | some outcome => contradiction
        | none =>
          -- What was answered so far is the beginning of what the whole run was answered.
          have hrun : b.runner.logged.run budget k' = .error e n := herror
          have hgrows := (Mimics.run (b := b) budget).grows k'
          have hagree := Mimics.step.agree k _ hgoing
          rw [hrun] at hgrows
          rw [hstep] at hagree
          obtain ⟨j, -, hj⟩ := hagree (hanswers.of_beginning hgrows)
          obtain ⟨front, p, x, hvisits, hp⟩ := ih hj hrun
          exact ⟨k :: front, p, x, congrArg (k :: ·) hvisits, hp⟩

end Bridge

/-- What a catalog refuses, it refuses for want of room. -/
theorem Catalog.isShortage_of_store {bytes : List UInt8} {x : Catalog} {e : MemoryError}
    (hbytes : bytes ≠ []) (h : shelf.store bytes x = .error e) : e.IsShortage := by
  have hlength : bytes.length ≠ 0 := mt List.length_eq_zero_iff.1 hbytes
  cases hobtain : x.blocks.obtain bytes.length with
  | ok result => simp [shelf, hobtain, Bind.bind, Except.bind, Pure.pure, Except.pure] at h
  | error e' =>
    simp only [shelf, hobtain, Bind.bind, Except.bind, Except.error.injEq] at h
    exact h ▸ Blocks.isShortage_of_allocate hlength hobtain

/-- A heap in order has all bytes of its live blocks. -/
theorem Bridge.Depicts.fair {b : Bridge σ Catalog} {m : Machine (Logged σ)} {i : Ideal Catalog}
    (h : b.Depicts m i) (hshelf : b.setting.shelf = Catalog.shelf)
    (horacle : ∀ past call e, b.setting.oracle past call = .error e → ¬ e.IsBreach) :
    b.setting.Fair i where
  store bytes heap e hbytes hstore := by
    rw [hshelf] at hstore
    exact Catalog.isShortage_of_store hbytes hstore
  fetch addr e hfetch := by
    obtain ⟨others, -, howns⟩ := h.lodged
    have hregion : m.heap.region ∈ m.stack.regions ++ m.heap.region :: others :=
      List.mem_append_right _ List.mem_cons_self
    rw [h.texts addr, Heap.readBlock_eq h.tiled howns hregion] at hfetch
    split at hfetch
    · contradiction
    · exact ⟨addr, (Except.error.inj hfetch).symm⟩
  oracle := horacle

/-- The instruction a machine stands at, seen from the machine without memory. -/
theorem Bridge.Going.due_of_step {b : Bridge σ Catalog} {m n : Machine (Logged σ)}
    {i : Ideal Catalog} {e : Fault} (h : b.Going m i) (hfair : b.setting.Fair i)
    (hbefore : m.cursor < b.runner.image.length)
    (hanswers : b.setting.Answers b.past n.host.2) (hstep : b.runner.logged.step m = .error e n)
    (hbreach : e.IsBreach) : e.Due b.setting.program m.cursor := by
  have hagree := Mimics.step.agree m i h
  rw [hstep] at hagree
  rcases hagree hanswers with ⟨hshort, -⟩ | ⟨j, hideal, -⟩
  · exact absurd hbreach (Fault.not_isBreach_of_isShortage hshort)
  · have hdue := hfair.ends_step (by rwa [← h.cursor, b.length])
    rw [hideal, ← h.cursor] at hdue
    exact hdue hbreach

theorem not_isBreach_of_replay {log : List Exchange}
    (hlog : ∀ x ∈ log, ∀ e, x.reply = .error e → ¬ e.IsBreach) (past : List HostCall)
    (call : HostCall) (e : Fault) (h : replay log past call = .error e) : ¬ e.IsBreach := by
  rw [replay] at h
  cases hx : log[past.length]? with
  | none => simp [hx] at h
  | some x => exact hlog x (List.mem_of_getElem? hx) e (by simpa [hx] using h)

/-- A run that fails does so in the last instruction that it begins, and by a breach only if that
instruction may commit it. -/
theorem Runner.due_of_run {r : Runner σ} {World : σ → List (Nat × Nat) → Prop} {m n : Machine σ}
    {budget : Nat} {e : Fault} (hr : r.Discreet World) (hm : m.InPlace World)
    (hhost : ∀ x ∈ r.transcript budget m, ∀ e, x.reply = .error e → ¬ e.IsBreach)
    (herror : r.run budget m = .error e n) :
    ∃ front p, r.visits budget m = front ++ [p] ∧ r.step p = .error e n ∧
      (e.IsBreach → e.Due (r.image.bytes m.arena) p.cursor) := by
  have hmirror : forgetEnd (r.logged.run budget m.recording) = r.run budget m :=
    Mirrors.run r budget m.recording
  have hlog : r.transcript budget m = (reached (r.logged.run budget m.recording)).host.2 := rfl
  cases hres : r.logged.run budget m.recording with
  | ok outcome k =>
    rw [← hmirror, hres] at herror
    contradiction
  | error e' k =>
    rw [← hmirror, hres] at herror
    rw [hres] at hlog
    cases herror
    -- The machine without memory is given the answers of the whole run.
    have hanswers := r.answers_replay m (r.transcript budget m)
    have hgoing : (bridge hr m (replay (r.transcript budget m))).Going m.recording m.ideal :=
      ⟨hm.depicts hr _, fun x hx => absurd hx List.not_mem_nil⟩
    obtain ⟨front, p, j, hvisits, hp, hbefore, hstep⟩ := hgoing.last_visit hres (hlog ▸ hanswers)
    have hvisits' := r.map_forget_visits budget m.recording
    have hstep' := Mirrors.step r p
    rw [show r.logged.visits budget m.recording = front ++ [p] from hvisits, List.map_append]
      at hvisits'
    rw [show r.logged.step p = .error e k from hstep] at hstep'
    refine ⟨front.map Machine.forget, p.forget, hvisits'.symm, hstep'.symm, ?_⟩
    exact hp.due_of_step (hp.fair rfl (not_isBreach_of_replay hhost)) hbefore (hlog ▸ hanswers)
      hstep

namespace Session

variable {γ : Type} {s : Session} {T U : Set Name} {r : Runner (γ × Estate)}
  {heap stack image : Nat} {m : Machine (γ × Estate)} {capacity limit budget : Nat}

theorem Begins.size_lt (h : s.Begins r heap stack image U m) (hs : s.Settled [])
    (hlimit : s.arena.limit + 2 * growBytes < addressLimit) (budget : Nat) :
    (reached (r.run budget m)).stack.size + 2 * growBytes < addressLimit := by
  have hkeeps : r.Keeps (Running U [] (hosted m)) :=
    keeps_running (fun v g priority name => (h.spawn v g priority name).steps)
      (fun v g target entry => (h.bind v g target entry).steps)
      (fun v g target => (h.dispatch v g target).steps) fun v g text => (h.print v g text).steps
  obtain ⟨hrunning, -⟩ := hs.running (U := U) h.onHeap h.onStack h.inArena h.lends
  have hend := (hkeeps.run budget).reached hrunning
  generalize reached (r.run budget m) = n at hend ⊢
  have howns := hend.settled.owns
  have hlive : n.stack.operandRegion ∈ n.arena.blocks.liveBlocks :=
    howns.mem_iff.2 (List.mem_append_right _ (List.mem_append_left _ List.mem_cons_self))
  -- The region of the operands is a live block of an arena that never exceeds its limit.
  obtain ⟨hnull, hfits⟩ : n.arena.InRange n.stack.base n.stack.size :=
    howns.sound.inRange_of_mem hlive
  have hcapacity := howns.sound.capacity_le
  have hsame : n.arena.limit = s.arena.limit := hend.undisturbed.frame.limit.trans (h.inArena ▸ rfl)
  change n.arena.capacity ≤ n.arena.limit at hcapacity
  omega

/-- In whatever session a program begins, with whatever bytes, wherever its cursor is and whatever
is on its stack: if its host answers no request with a breach, a run commits none either, apart from
an instruction that prints a pointer to no block, and a jump or a binding whose operand is no offset
of the program. All other faults of memory are shortages. The operands have a size in 32 bits all
the while, and would if they grew twice. -/
theorem breaches_of_run (hlimit : (opened capacity limit).arena.limit + 512 < addressLimit)
    (hs : Reaches T (opened capacity limit) s) (hm : s.Begins r heap stack image U m)
    (hhost : ∀ x ∈ r.transcript budget m, ∀ e, x.reply = .error e → ¬ e.IsBreach) :
    (∀ e n, r.run budget m = .error e n →
      ∃ front p, r.visits budget m = front ++ [p] ∧ r.step p = .error e n ∧
        (e.IsBreach → e.Due (r.image.bytes m.arena) p.cursor)) ∧
      (reached (r.run budget m)).stack.size + 2 * growBytes < addressLimit := by
  have hsteps := hs.steps [] (settled_opened capacity limit)
  obtain ⟨i, hi, himage⟩ := hm.onImage
  have hdiscreet := hm.discreet himage
  have hplace := hm.inPlace hsteps.1 (hs.orderly (orderly_opened capacity limit)) hi
  refine ⟨fun e n herror => Runner.due_of_run hdiscreet hplace hhost herror, ?_⟩
  have hsame : s.arena.limit = (opened capacity limit).arena.limit := hsteps.2.frame.limit
  exact hm.size_lt hsteps.1 (hsame ▸ hlimit) budget

/-! ### A forged pointer -/

/-- Prints a text of its own, and then what would be at an address that it makes up. -/
def forgerProgram : List UInt8 :=
  [28, 0, 2, 104, 105, 29, 0, 0, 0, 3, 231, 29]

/-- The program, with a heap, and a stack with a frame that returns to its start. -/
def forgerSession : Session :=
  ((((opened 16384 16384).perform (.newHeap 0 128)).perform (.newStack 0 64)).perform
    (.loadImage 0 forgerProgram)).perform (.onStack 0 (.pushFrame 0))

def forgerRunner : Runner (Unit × Estate) where
  origin := 0
  image := { base := 193, length := 12, entry := 0 }
  host := nursery

theorem reaches_forger : Reaches furnishedNames (opened 16384 16384) forgerSession := by
  refine .trans (.trans (.trans (.call _ (.newHeap 0 128) trivial ?_)
    (.call _ (.newStack 0 64) trivial ?_)) (.call _ (.loadImage 0 _) trivial ?_))
    (.call _ (.onStack 0 (.pushFrame 0)) trivial ?_)
  · exact Set.singleton_subset_iff.2 (.inl rfl)
  · exact Set.singleton_subset_iff.2 (.inr (.inl rfl))
  · exact Set.singleton_subset_iff.2 (.inr (.inr rfl))
  · exact Set.singleton_subset_iff.2 (.inr (.inl rfl))

theorem begins_of_nursery {heap stack image : Nat} {h : Heap} {t : Stack} {program : Image}
    (hheap : s.heapTable[heap]? = some h) (hstack : s.stackTable[stack]? = some t)
    (himage : ∃ i, s.imageTable[image]? = some i ∧ program = i.image) (cursor : Nat) :
    s.Begins ⟨0, program, nursery⟩ heap stack image {.heap 5}
      ⟨h, t, cursor, s.arena, ((), s.lent heap stack)⟩ where
  onHeap := hheap
  onStack := hstack
  onImage := himage
  inArena := rfl
  lends := rfl
  apart := by simp
  spawn v _ _ _ := .call v (.newHeap 5 64) trivial subset_rfl
  bind v _ _ _ := .refl _ v
  dispatch v _ _ := .call v (.drop (.heap 5)) trivial subset_rfl
  print v _ _ := .refl _ v

/-- From past the end the frame is returned to, the text is printed, and the address is refused. -/
theorem begins_forger : ∃ m, forgerSession.Begins forgerRunner 0 0 0 {.heap 5} m ∧
    m.cursor = 12 ∧ m.stack.depth = 1 ∧
    forgerRunner.transcript 9 m = [⟨.print 0 "hi", .ok 0⟩] ∧
    ∃ n, forgerRunner.run 9 m = .error (.memory (.invalidPointer 999)) n := by
  have hends : (forgerSession.heapTable[0]?.bind fun h => forgerSession.stackTable[0]?.map fun t =>
      let m : Machine (Unit × Estate) :=
        ⟨h, t, 12, forgerSession.arena, ((), forgerSession.lent 0 0)⟩
      (t.depth, forgerRunner.transcript 9 m, match forgerRunner.run 9 m with
        | .error e _ => some e
        | .ok _ _ => none)) =
      some (1, [⟨.print 0 "hi", .ok 0⟩], some (.memory (.invalidPointer 999))) := by
    decide +kernel
  have himage : forgerSession.imageTable[0]?.map (·.image) = some forgerRunner.image := by
    decide +kernel
  obtain ⟨i, hi, heq⟩ := Option.map_eq_some_iff.1 himage
  obtain ⟨h, hheap, hmap⟩ := Option.bind_eq_some_iff.1 hends
  obtain ⟨t, hstack, hpair⟩ := Option.map_eq_some_iff.1 hmap
  simp only [Prod.mk.injEq] at hpair
  obtain ⟨hdepth, htranscript, hfault⟩ := hpair
  refine ⟨_, begins_of_nursery hheap hstack ⟨i, hi, heq.symm⟩ 12, rfl, hdepth, htranscript, ?_⟩
  split at hfault
  · rename_i e n hrun
    obtain rfl := Option.some.inj hfault
    exact ⟨n, hrun⟩
  · cases hfault

theorem breaches_of_forger : ∃ m,
    (opened 16384 16384).arena.limit + 512 < addressLimit ∧
      Reaches furnishedNames (opened 16384 16384) forgerSession ∧
      forgerSession.Begins forgerRunner 0 0 0 {.heap 5} m ∧ m.cursor = 12 ∧ m.stack.depth = 1 ∧
      (∀ x ∈ forgerRunner.transcript 9 m, ∀ e, x.reply = .error e → ¬ e.IsBreach) ∧
      ∃ n front p, forgerRunner.run 9 m = .error (.memory (.invalidPointer 999)) n ∧
        forgerRunner.visits 9 m = front ++ [p] ∧
        (forgerRunner.image.bytes m.arena)[p.cursor]? = some Opcode.print.code := by
  have hlimit : (opened 16384 16384).arena.limit + 512 < addressLimit := by decide
  obtain ⟨m, hbegins, hcursor, hdepth, htranscript, n, hrun⟩ := begins_forger
  have hhost : ∀ x ∈ forgerRunner.transcript 9 m, ∀ e, x.reply = .error e → ¬ e.IsBreach := by
    simp [htranscript]
  obtain ⟨hbreaches, -⟩ := breaches_of_run hlimit reaches_forger hbegins hhost
  obtain ⟨front, p, hvisits, -, hdue⟩ := hbreaches _ n hrun
  refine ⟨m, hlimit, reaches_forger, hbegins, hcursor, hdepth, hhost, n, front, p, hrun, hvisits,
    ?_⟩
  have hforged := hdue id
  cases hforged with
  | forged addr hcode => exact hcode

end Session

end BytecodeKernel
