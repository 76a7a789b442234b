import BytecodeKernel.Machine.Recorder
import BytecodeKernel.Proofs.Machine.Simulation
import BytecodeKernel.Proofs.Machine.Workspaces
/-!
The interpreter refines the machine without memory. Whatever bytes the image has, wherever the
cursor stands, whatever is on the stack and whoever the host is, a run that finds room for what it
allocates ends as the run of that machine does, with the same requests on the way.
-/

namespace BytecodeKernel

variable {σ H α : Type}

/-! ### Heaps without bytes -/

/-- A block table, and the texts that stand in the blocks. -/
structure Catalog where
  blocks : Blocks
  /-- The text at an address, or why there is none. -/
  texts : Nat → Except MemoryError (List UInt8)

namespace Catalog

/-- A text goes into a block of its length. -/
def shelf : Shelf Catalog where
  store bytes x := do
    let (addr, blocks) ← x.blocks.obtain bytes.length
    return (addr, ⟨blocks, fun k => if k = addr then .ok bytes else x.texts k⟩)
  fetch x addr := x.texts addr

theorem renders_shelf : shelf.Renders fun blocks x => x.blocks = blocks := by
  rintro _ after x bytes addr - rfl hobtain
  refine ⟨⟨after, fun k => if k = addr then .ok bytes else x.texts k⟩, ?_, rfl, fun _ => rfl⟩
  simp only [shelf, hobtain, Bind.bind, Except.bind, Pure.pure, Except.pure]

end Catalog

/-! ### Oracles -/

/-- Gives the answers of a transcript, in their order, whatever is asked. -/
def replay (log : List Exchange) (past : List HostCall) (_ : HostCall) : Except Fault Nat :=
  (log[past.length]?.map (·.reply)).getD (.ok 0)

/-! ### Runs -/

/-- The bytes of the program. -/
def Image.bytes (image : Image) (a : Arena) : List UInt8 :=
  a.store.read image.base image.length

/-- The state of a machine, without its memory. -/
def Machine.ideal (m : Machine σ) : Ideal Catalog where
  cursor := m.cursor
  operands := (m.stack.operands m.arena).reverse
  returns := m.stack.returns m.arena
  heap := { blocks := m.heap.blocks, texts := m.heap.readBlock m.arena }
  calls := []

namespace Runner

variable (r : Runner σ)

/-- The program of the runner for the machine without memory. -/
def setting (m : Machine σ) (oracle : List HostCall → HostCall → Except Fault Nat) :
    Ideal.Setting Catalog where
  origin := r.origin
  program := r.image.bytes m.arena
  shelf := Catalog.shelf
  oracle := oracle

/-- No allocation of the program fails. The host may report that one of its own did. -/
def Supplied (budget : Nat) (m : Machine σ) : Prop :=
  ∀ e n, r.run budget m = .error e n → e.IsShortage →
    ∃ x ∈ r.transcript budget m, x.reply = .error e

end Runner

/-- A transcript can be replayed. -/
theorem Ideal.Setting.answers_replay {g : Ideal.Setting H} {log : List Exchange}
    (h : g.oracle = replay log) : g.Answers [] log := by
  rintro front x ⟨rest, rfl⟩
  simp [h, replay]

theorem Runner.answers_replay (r : Runner σ) (m : Machine σ) (log : List Exchange) :
    (r.setting m (replay log)).Answers [] log :=
  Ideal.Setting.answers_replay rfl

/-- The machine has its heap and its stack, both in order, beside the regions of the host. -/
structure Machine.InPlace (World : σ → List (Nat × Nat) → Prop) (m : Machine σ) : Prop where
  lodged : ∃ others, World m.host others ∧
    m.arena.Owns (m.stack.regions ++ m.heap.region :: others)
  order : m.stack.InOrder
  tiled : m.heap.Tiled

/-- A machine that has made these requests, and the same state without its memory. -/
structure Machine.Shows (m : Machine σ) (log : List Exchange) (i : Ideal Catalog) : Prop where
  cursor : m.cursor = i.cursor
  operands : m.stack.operands m.arena = i.operands.reverse
  depth : m.stack.depth = i.returns.length
  returns : m.stack.returns m.arena = i.returns
  texts : m.heap.readBlock m.arena = i.heap.texts
  calls : log.map (·.call) = i.calls

/-- Two ends with the same result or the same fault, in states that are related. -/
inductive SameEnd (R : Machine σ → Ideal H → Prop) :
    EStateM.Result Fault (Machine σ) α → EStateM.Result Fault (Ideal H) α → Prop
  | ok (v : α) {m : Machine σ} {i : Ideal H} (h : R m i) : SameEnd R (.ok v m) (.ok v i)
  | error (e : Fault) {m : Machine σ} {i : Ideal H} (h : R m i) :
    SameEnd R (.error e m) (.error e i)

theorem SameEnd.of_ok {R : Machine σ → Ideal H → Prop} {v : α} {m : Machine σ}
    {y : EStateM.Result Fault (Ideal H) α} (h : SameEnd R (.ok v m) y) :
    ∃ i, y = .ok v i ∧ R m i := by
  cases h with
  | ok _ h => exact ⟨_, rfl, h⟩

variable {r : Runner σ} {World : σ → List (Nat × Nat) → Prop} {m : Machine σ}

theorem Runner.supplied_of_ok {budget : Nat} {outcome : Outcome} {n : Machine σ}
    (h : r.run budget m = .ok outcome n) : r.Supplied budget m := by
  intro e n' herror
  rw [h] at herror
  cases herror

/-- What the machine without memory has to do with the runner. -/
def Runner.bridge (hr : r.Discreet World) (m : Machine σ)
    (oracle : List HostCall → HostCall → Except Fault Nat) : Bridge σ Catalog where
  runner := r
  World := World
  setting := r.setting m oracle
  Shows blocks x := x.blocks = blocks
  past := []
  discreet := hr
  renders := Catalog.renders_shelf
  origin := rfl
  length := ByteStore.length_read _ _ _

theorem Machine.InPlace.depicts (h : m.InPlace World) (hr : r.Discreet World)
    (oracle : List HostCall → HostCall → Except Fault Nat) :
    (Runner.bridge hr m oracle).Depicts m.recording m.ideal := by
  obtain ⟨others, hworld, howns⟩ := h.lodged
  refine ⟨⟨others, hworld, howns⟩, rfl, h.order, h.tiled, rfl, ?_, rfl, rfl, fun _ => rfl, rfl⟩
  rw [Machine.ideal, List.reverse_reverse]
  exact (Stack.operands_eq_slots h.order.top_le howns
    (List.mem_append_left _ List.mem_cons_self)).symm

theorem Bridge.Depicts.forget_shows {b : Bridge σ Catalog} {n : Machine (Logged σ)}
    {i : Ideal Catalog} (h : b.Depicts n i) (hshelf : b.setting.shelf = Catalog.shelf)
    (hpast : b.past = []) :
    n.forget.Shows n.host.2 i := by
  obtain ⟨others, -, howns⟩ := h.lodged
  have hcalls := h.calls
  rw [hpast, List.nil_append] at hcalls
  refine ⟨h.cursor, ?_, h.depth_eq, h.returns, ?_, hcalls.symm⟩
  · rw [← h.operands]
    exact Stack.operands_eq_slots h.order.top_le howns (List.mem_append_left _ List.mem_cons_self)
  · funext addr
    have htext := h.texts addr
    rw [hshelf] at htext
    exact htext.symm

/-- A run of the interpreter that finds room for what it allocates is a run of the machine without
memory, which is given the answers of the host. -/
theorem Runner.refines_run (hr : r.Discreet World) (hm : m.InPlace World) {budget : Nat}
    (hsupplied : r.Supplied budget m) {oracle : List HostCall → HostCall → Except Fault Nat}
    (hanswers : (r.setting m oracle).Answers [] (r.transcript budget m)) :
    SameEnd (fun n i => n.Shows (r.transcript budget m) i) (r.run budget m)
      ((r.setting m oracle).run budget m.ideal) := by
  have hgoing : (Runner.bridge hr m oracle).Going m.recording m.ideal :=
    ⟨hm.depicts hr oracle, fun x hx => absurd hx List.not_mem_nil⟩
  have hagree := (Bridge.Mimics.run budget).agree m.recording m.ideal hgoing hanswers
  have hforget : forgetEnd (r.logged.run budget m.recording) = r.run budget m :=
    Mirrors.run r budget m.recording
  change (Runner.bridge hr m oracle).Agree (r.logged.run budget m.recording)
    ((r.setting m oracle).run budget m.ideal) at hagree
  have hlog : r.transcript budget m = (reached (r.logged.run budget m.recording)).host.2 := rfl
  rw [← hforget]
  cases hres : r.logged.run budget m.recording with
  | ok outcome n =>
    rw [hres] at hagree hlog
    obtain ⟨i, hideal, hi⟩ := hagree
    rw [hideal, hlog]
    exact .ok outcome (hi.toDepicts.forget_shows rfl rfl)
  | error e n =>
    rw [hres] at hagree hlog hforget
    rcases hagree with ⟨hshort, hgranted⟩ | ⟨i, hideal, hi⟩
    · obtain ⟨x, hx, hreply⟩ := hsupplied e n.forget hforget.symm hshort
      obtain ⟨reply, hok⟩ := hgranted x (hlog ▸ hx)
      rw [hok] at hreply
      contradiction
    · rw [hideal, hlog]
      exact .error e (hi.forget_shows rfl rfl)

/-! ### A program with a frame to return to -/

/-- A host that leaves the arena as it is. -/
theorem Host.keeps_of_arena {β : Type} {x : HostM σ β} (h : ∀ s a, (reached (x (s, a))).2 = a)
    (shared : Nat × Nat) : Host.Keeps (fun _ others => shared ∈ others) shared x := by
  intro s a mine others hshared howns
  rw [h]
  exact ⟨others, hshared, howns, .refl _ _⟩

/-- A recorder does nothing to the arena. -/
theorem Recorder.discreet (origin : Nat) (image : Image) (refusal : String) :
    Runner.Discreet ⟨origin, image, Recorder.host refusal⟩
      fun _ others => image.region ∈ others where
  shared _ _ h := h
  spawn _ _ := Host.keeps_of_arena (fun s a => by
    simp only [Recorder.host, Recorder.spawn]
    split <;> rfl) _
  bind _ _ := Host.keeps_of_arena (fun _ _ => rfl) _
  dispatch _ := Host.keeps_of_arena (fun _ _ => rfl) _
  print _ := Host.keeps_of_arena (fun _ _ => rfl) _

/-- Prints a text of its own, and adds. -/
def chorusProgram : List UInt8 :=
  [28, 0, 2, 104, 105, 29, 5]

/-- The program, then a heap, and a stack with three operands and a frame that returns to the start.
-/
def chorusMachine : Machine Recorder where
  heap := { base := 8, size := 64, blocks := .ofSize 1 64 }
  stack := { base := 72, size := 64, initialSize := 64, top := 24, frames := some 136, depth := 1 }
  cursor := 6
  arena := { Arena.ofCapacity 16384 with
    store := (({} : ByteStore).write 1 chorusProgram).write 72 ([3, 4, 5].flatMap slotBytes)
    blocks := ⟨1, [.live 7, .live 64, .live 64, .live 8704, .free 7545]⟩ }
  host := { nextChild := 1, childrenLeft := 0 }

def chorusRunner : Runner Recorder where
  origin := 0
  image := { base := 1, length := 7, entry := 0 }
  host := Recorder.host "no room"

theorem discreet_chorus : chorusRunner.Discreet fun _ others => (1, 7) ∈ others :=
  Recorder.discreet 0 chorusRunner.image "no room"

theorem inPlace_chorus : chorusMachine.InPlace fun _ others => (1, 7) ∈ others where
  lodged := by
    have htidy : Segment.Tidy chorusMachine.arena.blocks.segments :=
      ⟨by decide, by simp [chorusMachine, Segment.isFree]⟩
    refine ⟨[(1, 7)], List.mem_singleton_self _, ⟨rfl, htidy, rfl, by decide, by decide⟩, ?_⟩
    decide
  order := ⟨by decide, by decide, by decide, fun _ => by decide⟩
  tiled := ⟨rfl, Blocks.tidy_ofSize _ _, rfl⟩

theorem run_chorus : ∃ n, chorusRunner.run 9 chorusMachine = .ok .finished n ∧
    n.stack.operands n.arena = [12] := by
  have hend : (match chorusRunner.run 9 chorusMachine with
      | .ok outcome n => some (outcome, n.stack.operands n.arena)
      | .error _ _ => none) = some (.finished, [12]) := by decide +kernel
  cases hrun : chorusRunner.run 9 chorusMachine with
  | error e n => simp [hrun] at hend
  | ok outcome n =>
    simp only [hrun, Option.some.injEq, Prod.mk.injEq] at hend
    exact ⟨n, by rw [hend.1], hend.2⟩

def chorusLog : List Exchange :=
  [⟨.print 0 "hi", .ok 0⟩]

/-- The frame is left at the first end of the program, and what was on the stack before is added to
after the text was printed. -/
theorem refines_run_chorus :
    chorusRunner.Discreet (fun _ others => (1, 7) ∈ others) ∧
      chorusMachine.InPlace (fun _ others => (1, 7) ∈ others) ∧
      chorusRunner.Supplied 9 chorusMachine ∧
      (chorusRunner.setting chorusMachine (replay chorusLog)).Answers []
        (chorusRunner.transcript 9 chorusMachine) ∧
      ∃ i, (chorusRunner.setting chorusMachine (replay chorusLog)).run 9 chorusMachine.ideal =
        .ok .finished i ∧ i.operands.reverse = [12] ∧ i.calls = [.print 0 "hi"] := by
  have hlog : chorusRunner.transcript 9 chorusMachine = chorusLog := by decide +kernel
  obtain ⟨n, hrun, hoperands⟩ := run_chorus
  have hsupplied := Runner.supplied_of_ok hrun
  have hanswers : (chorusRunner.setting chorusMachine (replay chorusLog)).Answers []
      (chorusRunner.transcript 9 chorusMachine) := by
    rw [hlog]
    exact chorusRunner.answers_replay chorusMachine chorusLog
  have hend := Runner.refines_run discreet_chorus inPlace_chorus hsupplied hanswers
  rw [hrun] at hend
  obtain ⟨i, hideal, hshows⟩ := hend.of_ok
  refine ⟨discreet_chorus, inPlace_chorus, hsupplied, hanswers, i, hideal, ?_, ?_⟩
  · exact hshows.operands.symm.trans hoperands
  · rw [← hshows.calls, hlog]
    rfl

end BytecodeKernel
