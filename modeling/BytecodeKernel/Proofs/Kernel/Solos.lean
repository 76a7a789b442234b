import BytecodeKernel.Proofs.Kernel.Leases
import BytecodeKernel.Proofs.Machine.Budgets
import BytecodeKernel.Proofs.Machine.Piles
import BytecodeKernel.Proofs.Machine.Refinement
import BytecodeKernel.Proofs.Machine.Voices
/-!
Programs on their own. A program that has an arena, a heap, a stack and a console to itself does
what the machine without memory does, as long as its arena has room for it: it prints the same texts
and comes to the same end, wherever its regions are and whatever their sizes were at first.
-/

namespace BytecodeKernel

/-- A console as the host of one program. Requests other than to print are granted and do
nothing. -/
def Console.host : Host Console where
  spawn _ _ _ := pure 0
  bind _ _ := pure ()
  dispatch _ := pure ()
  print origin text := fun (c, a) =>
    if c.panicsAt origin text then .error (.host "interpreter panicked") (c.print origin text, a)
    else .ok () (c.print origin text, a)

/-- A program and the machine that it has to itself. -/
structure Solo where
  runner : Runner Console
  machine : Machine Console

/-- Stores the program, takes a heap and a stack, and stands at the entry. -/
def Solo.create (id : Nat) (program : List UInt8) (entry heapBytes stackBytes : Nat)
    (breaks : String → Bool) (a : Arena) : Except MemoryError Solo := do
  let (image, a) ← Image.load program a
  let (context, a) ← Context.create heapBytes stackBytes a
  return {
    runner := ⟨id, image.enteredAt entry, Console.host⟩
    machine :=
      { heap := context.heap
        stack := context.stack
        cursor := entry
        arena := a
        host := { sink := .breaking breaks } } }

/-- What is seen of a run: the texts it printed, where it stands with what on its stack, and how it
ended. -/
structure Account where
  texts : List String
  cursor : Nat
  operands : List Int64
  ended : Quantum
deriving DecidableEq

/-- A run of so many instructions at most. -/
def Solo.account (s : Solo) (budget : Nat) : Account :=
  let outcome := s.runner.run budget s.machine
  let m := reached outcome
  { texts := m.host.linesFrom s.runner.origin
    cursor := m.cursor
    operands := m.stack.operands m.arena
    ended := Kernel.quantumOfEnd outcome }

namespace Ideal

/-- The machine without memory that runs a program under a console. -/
def Setting.printing (id : Nat) (program : List UInt8) (breaks : String → Bool) :
    Setting Pile where
  origin := id
  program := program
  shelf := Pile.shelf
  oracle _ call := verdict breaks call

/-- Nothing was done yet. -/
def beginning (entry : Nat) : Ideal Pile where
  cursor := entry
  operands := []
  returns := []
  heap := .empty
  calls := []

/-- The run of a program from its entry on. -/
def recital (id : Nat) (program : List UInt8) (entry : Nat) (breaks : String → Bool)
    (budget : Nat) : EStateM.Result Fault (Ideal Pile) Outcome :=
  (Setting.printing id program breaks).run budget (.beginning entry)

/-- What is seen of the end of a run. -/
def account (breaks : String → Bool) (y : EStateM.Result Fault (Ideal Pile) Outcome) :
    Account where
  texts := heard breaks (reached y).calls
  cursor := (reached y).cursor
  operands := (reached y).operands.reverse
  ended := Kernel.quantumOfEnd y

end Ideal

variable {σ H : Type} {b : Bridge σ H}

/-- Where there was room, two ends that agree count as the same, in states of which one depicts the
other. -/
theorem Bridge.Agree.same {x : EStateM.Result Fault (Machine (Logged σ)) Outcome}
    {y : EStateM.Result Fault (Ideal H) Outcome} (h : b.Agree x y)
    (hroom : ∀ e m, forgetEnd x = .error e m → ¬ e.IsShortage) :
    Kernel.quantumOfEnd (forgetEnd x) = Kernel.quantumOfEnd y ∧
      b.Depicts (reached x) (reached y) := by
  cases x with
  | ok outcome m =>
    obtain ⟨i, rfl, hi⟩ := h
    exact ⟨rfl, hi.toDepicts⟩
  | error e m =>
    rcases h with ⟨hshort, -⟩ | ⟨i, rfl, hi⟩
    · exact absurd hshort (hroom e _ rfl)
    · exact ⟨rfl, hi⟩

/-- A run that finds room, from a state that is depicted, and the state that it comes to with its
transcript. -/
theorem Bridge.Depicts.run {m : Machine σ} {i : Ideal H} (h : b.Depicts m.recording i)
    {budget : Nat} (hanswers : b.setting.Answers b.past (b.runner.transcript budget m))
    (hroom : ∀ e n, b.runner.run budget m = .error e n → ¬ e.IsShortage) :
    Kernel.quantumOfEnd (b.runner.run budget m) =
        Kernel.quantumOfEnd (b.setting.run budget i) ∧
      ∃ n, n.forget = reached (b.runner.run budget m) ∧
        n.host.2 = b.runner.transcript budget m ∧
        b.Depicts n (reached (b.setting.run budget i)) := by
  have hagree := (Bridge.Mimics.run budget).agree m.recording i
    ⟨h, fun x hx => absurd hx List.not_mem_nil⟩ hanswers
  have hforget : forgetEnd (b.runner.logged.run budget m.recording) = b.runner.run budget m :=
    Mirrors.run b.runner budget m.recording
  rw [← hforget] at hroom
  obtain ⟨hended, hdepicts⟩ := hagree.same hroom
  rw [← hforget, reached_forgetEnd]
  exact ⟨hended, _, rfl, rfl, hdepicts⟩

theorem Bridge.Depicts.operands_eq {n : Machine (Logged σ)} {i : Ideal H} (h : b.Depicts n i) :
    n.stack.operands n.arena = i.operands.reverse := by
  obtain ⟨others, -, howns⟩ := h.lodged
  rw [← h.operands]
  exact Stack.operands_eq_slots h.order.top_le howns (List.mem_append_left _ List.mem_cons_self)

/-- A console answers what it says, and so does one that is asked again. -/
theorem Ideal.Setting.answers_printing (id : Nat) (program : List UInt8) {c d : Console}
    {Sure : HostCall → Prop} {origin : Nat} {log : List Exchange} {breaks : String → Bool}
    (h : Echoes Sure origin c d log) (hc : c.sink.BreaksAt origin breaks)
    (hsure : ∀ x ∈ log, Sure x.call) (past : List HostCall) :
    (Setting.printing id program breaks).Answers past log := by
  rintro front x ⟨rest, rfl⟩
  have hx : x ∈ front ++ [x] ++ rest := by simp
  exact (h.verdicts breaks hc x hx (hsure x hx)).symm

namespace Solo

theorem voiced_host (id : Nat) (image : Image) :
    (Runner.mk id image Console.host).Voiced (fun c => c) fun _ => True where
  spawn _ _ := ⟨fun _ _ => rfl, fun _ _ _ => rfl⟩
  bind _ _ := ⟨fun _ _ => rfl, fun _ _ _ => rfl⟩
  dispatch _ := ⟨fun _ _ => rfl, fun _ _ _ => rfl⟩
  print text := by
    refine ⟨fun c a => ?_, fun _ c a => ?_⟩ <;>
    · simp only [Console.host, Console.after, Console.answer, verdict]
      cases c.panicsAt id text <;> rfl

theorem discreet_host (id : Nat) (image : Image) :
    (Runner.mk id image Console.host).Discreet fun _ others => image.region ∈ others where
  shared _ _ h := h
  spawn _ _ := Host.keeps_of_arena (fun _ _ => rfl) _
  bind _ _ := Host.keeps_of_arena (fun _ _ => rfl) _
  dispatch _ := Host.keeps_of_arena (fun _ _ => rfl) _
  print text := Host.keeps_of_arena (fun c a => by
    simp only [Console.host]
    cases c.panicsAt id text <;> rfl) _

end Solo

/-- A program that was stored can be read. -/
theorem Image.holds_of_load {bytes : List UInt8} {a after : Arena} {image : Image}
    (hload : Image.load bytes a = .ok (image, after)) :
    image.Holds bytes after ∧ image.length = bytes.length := by
  obtain ⟨fresh, -, hwrite, hlength, -⟩ := load_eq_ok hload
  obtain ⟨-, rfl⟩ := Arena.write_eq_ok hwrite
  refine ⟨?_, hlength⟩
  rw [Holds, hlength]
  exact ByteStore.read_write _ _ _

theorem Arena.owns_withLimit (capacity limit : Nat) : (withLimit capacity limit).Owns [] := by
  refine ⟨sound_withLimit capacity limit, ?_⟩
  show ((Blocks.ofSize 1 _).liveBlocks).Perm []
  rw [Blocks.liveBlocks_ofSize]

/-- A stack without frames is in order. -/
theorem Stack.Plain.inOrder {s : Stack} (h : s.Plain) (htop : s.top ≤ s.size) : s.InOrder :=
  ⟨htop, h.slots, h.depth ▸ Nat.zero_le _, fun hdepth => absurd h.depth hdepth⟩

namespace Solo

variable {id entry heapBytes stackBytes : Nat} {program : List UInt8} {breaks : String → Bool}
  {a : Arena} {s : Solo}

def bridge (id : Nat) (image : Image) (program : List UInt8) (breaks : String → Bool)
    (hlength : program.length = image.length) : Bridge Console Pile where
  runner := ⟨id, image, Console.host⟩
  World _ others := image.region ∈ others
  setting := .printing id program breaks
  Shows := Pile.Shows
  past := []
  discreet := discreet_host id image
  renders := Pile.renders_shelf
  origin := Eq.refl id
  length := hlength

theorem depicts_of_create (ha : a.Owns [])
    (hcreate : Solo.create id program entry heapBytes stackBytes breaks a = .ok s) :
    ∃ image, ∃ hlength : program.length = image.length,
      s.runner = ⟨id, image, Console.host⟩ ∧ s.machine.host = { sink := .breaking breaks } ∧
        (bridge id image program breaks hlength).Depicts s.machine.recording
          (.beginning entry) := by
  obtain ⟨⟨image, b⟩, hload, hrest⟩ := ok_of_bind hcreate
  obtain ⟨⟨context, c⟩, hcontext, hpair⟩ := ok_of_bind hrest
  cases hpair
  obtain ⟨hloaded, -⟩ := Workspace.owns_of_load ha hload
  obtain ⟨hholds, hlength⟩ := Image.holds_of_load hload
  obtain ⟨howns, hkept, hcursor, hstore, -⟩ := Context.owns_of_create hloaded hcontext
  obtain ⟨hblocks, htop⟩ := hkept.fresh hcursor
  refine ⟨image.enteredAt entry, hlength.symm, rfl, rfl, ?_⟩
  refine ⟨⟨[image.region], List.mem_singleton_self _, howns.perm ?_⟩, ?_,
    hkept.plain.inOrder hkept.top_le, hkept.tiled, rfl, ?_,
    Stack.returns_of_depth_eq_zero hkept.plain.depth, ?_, fun addr => ?_, rfl⟩
  · exact List.perm_middle.symm
  · show c.store.read image.base image.length = program
    rw [hstore]
    exact hholds
  · show context.stack.slots c = []
    rw [Stack.slots, Stack.length, htop]
    rfl
  · show Pile.Shows context.heap.blocks .empty
    rw [hblocks]
    exact Pile.shows_ofSize _
  · exact (Heap.readBlock_of_ofSize hblocks c addr).symm

/-- What a program does on its own is what the machine without memory does, if there is room for it.
-/
theorem account_eq (ha : a.Owns [])
    (hcreate : Solo.create id program entry heapBytes stackBytes breaks a = .ok s) {budget : Nat}
    (hroom : ∀ e m, s.runner.run budget s.machine = .error e m → ¬ e.IsShortage) :
    s.account budget =
      Ideal.account breaks (Ideal.recital id program entry breaks budget) := by
  obtain ⟨image, hlength, hrunner, hconsole, hdepicts⟩ := depicts_of_create ha hcreate
  obtain ⟨runner, m⟩ := s
  obtain rfl : runner = ⟨id, image, Console.host⟩ := hrunner
  have hechoes := (voiced_host id image).echoes budget m
  have hbreaks : m.host.sink.BreaksAt id breaks := by
    rw [show m.host = { sink := .breaking breaks } from hconsole]
    exact Sink.breaksAt_breaking id breaks
  have hanswers : (Ideal.Setting.printing id program breaks).Answers []
      (Runner.transcript ⟨id, image, Console.host⟩ budget m) :=
    Ideal.Setting.answers_printing id program hechoes hbreaks (fun _ _ => trivial) []
  obtain ⟨hended, n, hforget, hlog, hend⟩ := hdepicts.run hanswers hroom
  have hlines := hechoes.lines breaks hbreaks
  rw [show m.host = { sink := .breaking breaks } from hconsole] at hlines
  have hcalls := hend.calls
  rw [hlog] at hcalls
  simp only [Solo.account, Ideal.account, Account.mk.injEq]
  refine ⟨hlines.trans (congrArg (heard breaks) hcalls.symm), ?_, ?_, hended⟩
  · exact (congrArg Machine.cursor hforget).symm.trans hend.cursor
  · exact (congrArg (fun n => n.stack.operands n.arena) hforget).symm.trans hend.operands_eq

end Solo

end BytecodeKernel
