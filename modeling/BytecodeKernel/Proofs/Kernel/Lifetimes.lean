import BytecodeKernel.Proofs.Kernel.Legs
import BytecodeKernel.Proofs.Memory.Gaps
import BytecodeKernel.Proofs.Memory.Partition
/-!
The life of a process. It gets one program at most. What would give it another one is refused, and
leaves the kernel as it was before that program was brought: an image that was made for the process
goes with its refusal. The process goes through its program as far as its quanta take it and nothing
else moves it. Once it is halted nobody who still knows it can make it run or give it anything
again.
-/

namespace BytecodeKernel

namespace System

variable {s : System} {id : Nat} {f : Process → Process}

theorem modifyProcess_eq_self (h : ∀ p, s.process? id = some p → f p = p) :
    s.modifyProcess id f = s := by
  rw [modifyProcess, modify_eq_self h]

end System

namespace Kernel

variable {held : List (Nat × Nat)} {k k' : Kernel} {id : Nat} {p : Process}

/-! ### After the end -/

/-- A process that has come to its end. It has nothing, and to run it, to wake it, to give it a
program or to a worker, or to end it again leaves the kernel as it is, but that an image is dropped
that was to be its program. -/
structure Over (id : Nat) (k : Kernel) : Prop where
  record : ∃ p, k.1.process? id = some p ∧ p.halted = true ∧ p.Bare
  execute : ∀ budget, execute id budget k = (.idle, k)
  hang : perform k (.hang id) = k
  wake : perform k (.wake id) = k
  bindImage : ∀ image kept,
    bindImage id image kept k = .error (.halted id) (dropHandle image kept k)
  bindProgram : ∀ bytes, bindProgram id bytes k = .error (.halted id) k
  dispatch : dispatch id k = .error (.unknownProcess id) k
  halt : halt id k = .error (.unknownProcess id) k
  haltSubtree : haltSubtree id k = .error (.unknownProcess id) k
  close : close id k = k
  closeSubtree : closeSubtree id k = k

theorem hang_eq_self (h : p.active = false) : p.hang = p := by
  rw [Process.hang, ← h]

theorem release_of_halted (hp : k.1.process? id = some p) (hhalted : p.halted = true)
    (hbare : p.Bare) : release id k = k := by
  obtain ⟨s, a⟩ := k
  replace hp : s.process? id = some p := hp
  have hhang : s.modifyProcess id (·.hang) = s := System.modifyProcess_eq_self fun q hq => by
    obtain rfl := Option.some.inj (hp.symm.trans hq)
    exact hang_eq_self hbare.active
  simp only [release, hp, hhalted, if_true, hhang]

theorem over_of_halted (hs : k.1.Orderly ∅) (h : k.1.isHalted id) : Over id k := by
  have hgone : Gone id k := by
    rw [System.isHalted, Option.any_eq_true] at h
    exact h
  have hunregistered := hgone.not_registered hs
  have hidle := (hgone.hung hs).isIdle
  obtain ⟨p, hp, hhalted⟩ := hgone
  have hbare := hs.recorded.bare id p hp hhalted
  have hrelease := release_of_halted hp hhalted hbare
  have hsame {f : Process → Process} (hf : f p = p) : (k.1.modifyProcess id f, k.2) = k := by
    rw [System.modifyProcess_eq_self fun q hq => ?_]
    obtain rfl := Option.some.inj (hp.symm.trans hq)
    exact hf
  have hbindable := requireBindable_of_halted hp hhalted
  refine ⟨⟨p, hp, hhalted, hbare⟩, fun budget => execute_of_isIdle budget hidle,
    hsame (hang_eq_self hbare.active), hsame (if_pos hhalted),
    bindImage_of_refused hbindable, fun bytes => ?_, ?_, ?_, ?_, ?_, ?_⟩
  · simp only [bindProgram, bind, EStateM.bind, hbindable]
  · rw [dispatch, requireRegistered_bind, if_neg hunregistered]
  · rw [halt_eq, if_neg hunregistered]
  · rw [haltSubtree_eq, if_neg hunregistered]
  · rw [close, if_neg hunregistered, hrelease]
  · rw [closeSubtree, if_neg hunregistered, hrelease]

/-! ### Refused programs -/

/-- However a program is refused, no process changes, and the tables of the arena are as they were
before it was brought. An image that is refused is dropped, so that its block is free if no one else
has it. -/
structure Refuses (held : List (Nat × Nat)) (id : Nat) (k : Kernel) : Prop where
  /-- A process with a program gets no other one. -/
  again : k.1.isHalted id = false → ∀ image, k.1.image? id = some image →
    (∀ other kept,
      bindImage id other kept k = .error (.alreadyBound id) (dropHandle other kept k)) ∧
      ∀ bytes, bindProgram id bytes k = .error (.alreadyBound id) k
  program : ∀ bytes e k', bindProgram id bytes k = .error e k' → k' = k
  loaded : ∀ bytes entry e k', loadImage bytes entry k = .error e k' → k' = k
  system : ∀ image kept e k', bindImage id image kept k = .error e k' → k'.1 = k.1
  /-- Whoever binds the image, or a process, has it still. -/
  shared : ∀ image kept, kept = true ∨ image.region ∈ k.1.programs →
    ∀ e k', bindImage id image kept k = .error e k' → k' = k
  /-- Nobody has the image any more. -/
  last : ∀ image, image.region ∈ held → ∀ e k', bindImage id image false k = .error e k' →
    k.2.free image.base = .ok k'.2
  /-- The image was stored to be bound. -/
  discarded : ∀ bytes entry image k', loadImage bytes entry k = .ok image k' →
    ∀ e k'', bindImage id image false k' = .error e k'' → k''.1 = k.1 ∧ k.2.SameTables k''.2

theorem loadImage_eq_ok {bytes : List UInt8} {entry : Nat} {image : Image}
    (h : loadImage bytes entry k = .ok image k') :
    ∃ stored a, Image.load bytes k.2 = .ok (stored, a) ∧ image = stored.enteredAt entry ∧
      k' = (k.1, a) := by
  simp only [loadImage, TenantM.onArena, bind, EStateM.bind] at h
  cases hload : Image.load bytes k.2 with
  | error e =>
    rw [hload] at h
    contradiction
  | ok result =>
    obtain ⟨stored, a⟩ := result
    rw [hload] at h
    cases h
    exact ⟨stored, a, rfl, rfl, rfl⟩

theorem exists_loadImage {bytes : List UInt8} (entry : Nat) (h : (Image.load bytes k.2).isOk) :
    ∃ image k', loadImage bytes entry k = .ok image k' := by
  cases hload : Image.load bytes k.2 with
  | error e =>
    rw [hload] at h
    contradiction
  | ok result =>
    refine ⟨result.1.enteredAt entry, (k.1, result.2), ?_⟩
    simp only [loadImage, TenantM.onArena, bind, EStateM.bind, hload]
    rfl

theorem loadImage_eq_error {bytes : List UInt8} {entry : Nat} {e : MemoryError}
    (h : loadImage bytes entry k = .error e k') : k' = k := by
  simp only [loadImage, TenantM.onArena, bind, EStateM.bind] at h
  cases hload : Image.load bytes k.2 with
  | error e =>
    rw [hload] at h
    cases h
    rfl
  | ok result =>
    rw [hload] at h
    contradiction

/-- The block was cut off a free one and goes back to it. -/
theorem sameTables_discard {bytes : List UInt8} {image : Image} {a b : Arena} (ha : a.Sound)
    (hload : Image.load bytes a = .ok (image, b)) : a.SameTables (b.discard image.base) := by
  obtain ⟨fresh, hallocate, hwrite, -⟩ := Image.load_eq_ok hload
  obtain ⟨blocks, hblocks, rfl⟩ := Arena.allocate_eq_ok hallocate
  obtain ⟨-, rfl⟩ := Arena.write_eq_ok hwrite
  have hrelease := Blocks.release_of_allocate ha.tidy hblocks
  simp only [Arena.discard, Arena.free, hrelease]
  exact ⟨rfl, rfl, rfl⟩

theorem bindImage_eq_error {image : Image} {kept : Bool} {e : KernelError}
    (h : bindImage id image kept k = .error e k') : k' = dropHandle image kept k := by
  rcases bindImage_cases id image kept k with ⟨-, heq⟩ | ⟨e', heq⟩
  · rw [heq] at h
    contradiction
  · rw [heq] at h
    exact (EStateM.Result.error.inj h).2.symm

/-- An image that was just stored is the client's. -/
theorem Housed.stored (h : Housed none held k) {bytes : List UInt8} {image : Image} {a : Arena}
    (hload : Image.load bytes k.2 = .ok (image, a)) (entry : Nat) :
    Housed none ((image.enteredAt entry).region :: held) (k.1, a) :=
  h.withArena ((Workspace.owns_of_load h.owns hload).1.perm List.perm_middle.symm)

theorem Housed.refuses (h : Housed none held k) (id : Nat) : Refuses held id k where
  again halive image himage := by
    obtain ⟨p, hp, hbound⟩ := Option.bind_eq_some_iff.1 himage
    rw [System.isHalted_of_record hp] at halive
    have hbindable := requireBindable_of_bound hp halive hbound
    refine ⟨bindImage_of_refused hbindable, fun bytes => ?_⟩
    simp only [bindProgram, bind, EStateM.bind, hbindable]
  program bytes e k' herror := by
    rcases bindProgram_cases id bytes k with ⟨image, a, -, -, heq⟩ | ⟨e', heq⟩
    · rw [heq] at herror
      contradiction
    · rw [heq] at herror
      exact (EStateM.Result.error.inj herror).2.symm
  loaded bytes entry e k' herror := loadImage_eq_error herror
  system image kept e k' herror := by
    rw [bindImage_eq_error herror, system_dropHandle]
  shared image kept hkept e k' herror := by
    rw [bindImage_eq_error herror]
    rcases hkept with rfl | hmem
    · rfl
    · exact dropHandle_of_shared hmem kept
  last image hheld e k' herror := by
    have hclient := h.reorder (List.perm_cons_erase hheld)
    obtain ⟨after, hfree, -⟩ := (hclient.owns.perm List.perm_middle).free
    rw [bindImage_eq_error herror, hclient.dropHandle_eq, Arena.discard]
    simp only [hfree]
  discarded bytes entry image k' hload e k'' herror := by
    obtain ⟨stored, a, hstored, rfl, rfl⟩ := loadImage_eq_ok hload
    rw [bindImage_eq_error herror, (h.stored hstored entry).dropHandle_eq]
    have hdropped : k.2.SameTables (a.discard stored.base) :=
      sameTables_discard h.owns.sound hstored
    exact ⟨rfl, hdropped⟩

/-! ### Reachable states -/

/-- Whoever stores a program holds its block. -/
theorem Reachable.stored (h : Reachable held k) {bytes : List UInt8} {entry : Nat} {image : Image}
    (hload : loadImage bytes entry k = .ok image k') : Reachable (image.region :: held) k' := by
  obtain ⟨stored, a, hstored, rfl, rfl⟩ := loadImage_eq_ok hload
  obtain ⟨fresh, hallocate, hwrite, hlength, -⟩ := Image.load_eq_ok hstored
  have htaken := h.call (.allocate bytes.length) trivial
  have hregion : (stored.base, bytes.length) = (stored.enteredAt entry).region := by
    rw [← hlength]
    rfl
  simp only [Arena.perform, Arena.Call.hold, Arena.holdMore, hallocate, Except.map, Arena.settle,
    hregion] at htaken
  have howns := htaken.housed.owns.perm List.perm_middle
  have hwritten := htaken.call (.write stored.base bytes) fun _ => by
    rw [← hlength]
    exact howns.clear_head List.mem_cons_self
  simpa only [Arena.perform, Arena.Call.hold, hwrite, Arena.settle] using hwritten

/-- An image that only its client has does not outlast its refusal. -/
theorem Reachable.freed (h : Reachable held k) {image : Image} (hheld : image.region ∈ held)
    {e : KernelError} (herror : bindImage id image false k = .error e k') :
    image.region ∈ k.2.blocks.liveBlocks ∧ image.region ∉ k'.2.blocks.liveBlocks := by
  have hfree := (h.housed.refuses id).last image hheld e k' herror
  have howns := (h.housed.reorder (List.perm_cons_erase hheld)).owns.perm List.perm_middle
  obtain ⟨after, hfreed, hafter, -⟩ := howns.free
  obtain rfl := Except.ok.inj (hfreed.symm.trans hfree)
  refine ⟨howns.mem_iff.2 List.mem_cons_self, fun hlive => ?_⟩
  exact (List.nodup_cons.1 howns.nodup).1 (hafter.mem_iff.1 hlive)

/-- Whatever is asked of a process or of others, it is halted once and for all, it gets no program
but the one it has, and when it is halted nothing more can be done about it. Every history is also
one of operations that are no passes, with the same quanta, and in such a history the quanta of the
process make one way through its program: the first begins at the entry, each one where the one
before stopped, and in between the process stays there. No quantum is left out but the idle ones. A
program that is refused changes no process, and what is allocated is what was before the program was
brought, or without it if it was allocated already. -/
theorem lifeCycle_of_reachable (hk : Reachable held k) (id : Nat) :
    (∀ ops, k.1.Lives id (performAll k ops).1 ∧ (k.1.isHalted id → Over id (performAll k ops))) ∧
      (∀ ops, ∃ steps : List Op, (∀ op ∈ steps, op.IsPlain) ∧
        performAll k steps = performAll k ops ∧ stintsOf steps k = stintsOf ops k) ∧
      (∀ steps : List Op, (∀ op ∈ steps, op.IsPlain) →
        ∃ last, Resumes (k.1.image? id) (k.1.cursor? id) (legsOf id steps k) last ∧
          ((performAll k steps).1.isHalted id = false →
            (performAll k steps).1.cursor? id = last)) ∧
      (∀ budget, leg? id budget k = none ↔ (execute id budget k).1 = .idle) ∧
      Refuses held id k := by
  have hs := hk.orderly
  refine ⟨fun ops => ⟨lives_performAll hs ops, fun hhalted => ?_⟩, fun ops => exists_steps ops k,
    fun steps hplain => resumes_legsOf hs hplain, fun _ => leg?_eq_none_iff, hk.housed.refuses id⟩
  have hlater : (performAll k ops).1.Orderly ∅ := (Tracks.performAll ⟨hs, .refl _⟩ ops).orderly
  exact over_of_halted hlater ((lives_performAll hs ops).halted hhalted)

/-! ### A program in three quanta -/

/-- A program is brought in vain, and the process is hung for a while and has quanta then too. -/
def interruptions : List Op :=
  [.execute 0 2, .hang 0, .execute 0 2, .bindProgram 0 [127], .wake 0, .execute 1 9,
    .setPriority 0 7, .tick 0, .execute 0 2, .execute 0 9]

/-- What is asked of the process after its end. -/
def requests : List Op :=
  [.wake 0, .bindProgram 0 [127], .setPriority 0 1, .tick 0, .dispatch 0, .execute 0 9, .runPass,
    .halt 0, .closeSubtree 0]

/-- The two processes after the first has gone through its program and was halted. -/
def overKernel : Kernel :=
  performAll (withRefrains familyKernel) (interruptions ++ [.halt 0])

theorem lifeCycle_of_refrains :
    Reachable [] (withRefrains familyKernel) ∧ Reachable [] overKernel ∧
      Resumes (some ⟨129, 17, 0⟩) none
        [⟨⟨129, 17, 0⟩, 0, 6⟩, ⟨⟨129, 17, 0⟩, 6, 16⟩, ⟨⟨129, 17, 0⟩, 16, 17⟩] (some 17) ∧
      legsOf 0 interruptions (withRefrains familyKernel) =
        [⟨⟨129, 17, 0⟩, 0, 6⟩, ⟨⟨129, 17, 0⟩, 6, 16⟩, ⟨⟨129, 17, 0⟩, 16, 17⟩] ∧
      overKernel.1.isHalted 0 ∧ Over 0 (performAll overKernel requests) ∧
      Refuses [] 1 (withRefrains familyKernel) := by
  have hcreate : Kernel.create familySettings = .ok familyKernel := rfl
  have hbegun : Reachable [] (withRefrains familyKernel) := (Reachable.create hcreate).withRefrains
  have hover : Reachable [] overKernel := by
    apply hbegun.performAll
    simp [interruptions, Op.IsBindImage]
  have hhalted : overKernel.1.isHalted 0 := by decide +kernel
  have hlegs : legsOf 0 interruptions (withRefrains familyKernel) =
      [⟨⟨129, 17, 0⟩, 0, 6⟩, ⟨⟨129, 17, 0⟩, 6, 16⟩, ⟨⟨129, 17, 0⟩, 16, 17⟩] := by decide +kernel
  have himage : (withRefrains familyKernel).1.image? 0 = some ⟨129, 17, 0⟩ := by decide +kernel
  have hcursor : (withRefrains familyKernel).1.cursor? 0 = none := by decide +kernel
  obtain ⟨-, -, hways, -, -⟩ := lifeCycle_of_reachable hbegun 0
  obtain ⟨last, hway, hlast⟩ := hways interruptions (by simp [interruptions, Op.IsPlain])
  obtain rfl : some 17 = last := Eq.trans (by decide +kernel) (hlast (by decide +kernel))
  rw [himage, hcursor, hlegs] at hway
  obtain ⟨-, -, -, -, hrefuses⟩ := lifeCycle_of_reachable hbegun 1
  obtain ⟨hhistories, -⟩ := lifeCycle_of_reachable hover 0
  exact ⟨hbegun, hover, hway, hlegs, hhalted, (hhistories requests).2 hhalted, hrefuses⟩

/-- A client stores another program and gives the image of it away to the process that has one. The
process refuses, and the block of the image is free then. -/
theorem refused_image_is_freed :
    ∃ image k k', loadImage [127] 0 (withRefrains familyKernel) = .ok image k ∧
      Reachable [image.region] k ∧ image.region ∈ k.2.blocks.liveBlocks ∧
      bindImage 0 image false k = .error (.alreadyBound 0) k' ∧
      image.region ∉ k'.2.blocks.liveBlocks ∧ ¬ k.2.SameTables k'.2 := by
  have hcreate : Kernel.create familySettings = .ok familyKernel := rfl
  have hbegun : Reachable [] (withRefrains familyKernel) := (Reachable.create hcreate).withRefrains
  have hroom : (Image.load [127] (withRefrains familyKernel).2).isOk := by decide +kernel
  obtain ⟨image, k, hload⟩ := exists_loadImage 0 hroom
  have hstored := hbegun.stored hload
  have hsystem : k.1 = (withRefrains familyKernel).1 := by
    obtain ⟨-, -, -, -, rfl⟩ := loadImage_eq_ok hload
    rfl
  have halive : k.1.isHalted 0 = false := by
    rw [hsystem]
    decide +kernel
  have hbound : k.1.image? 0 = some ⟨129, 17, 0⟩ := by
    rw [hsystem]
    decide +kernel
  obtain ⟨hagain, -⟩ := (hstored.housed.refuses 0).again halive _ hbound
  have hrefused := hagain image false
  obtain ⟨hlive, hfree⟩ := hstored.freed List.mem_cons_self hrefused
  refine ⟨image, k, dropHandle image false k, hload, hstored, hlive, hrefused, hfree, ?_⟩
  rintro ⟨-, -, hblocks⟩
  rw [hblocks] at hfree
  exact hfree hlive

end Kernel

end BytecodeKernel
