import BytecodeKernel.Proofs.Kernel.Stints
/-!
The identities of processes. They are handed out in a row, one for each creation that gets as far as
its memory. A creation that is starved of memory has used its identity up, so it leaves a gap, and
the limit is reached when creations and gaps come to it together. As long as no creation is starved,
the counter is the number of processes, and the limit stands for as many of them.
-/

namespace BytecodeKernel

/-- What comes of asking for a process. -/
inductive Creation where
  | made (id : Nat)
  /-- There was no memory for it. -/
  | starved
  /-- There was no identity for it. -/
  | limited
  /-- Its parent was not registered. -/
  | orphaned
deriving DecidableEq

namespace Creation

/-- What the reply says. Of the limit a program is told in the words of the kernel. -/
def ofReply : Except Fault Nat → Creation
  | .ok id => .made id
  | .error (.memory _) => .starved
  | .error (.host _) => .limited
  | .error _ => .orphaned

def made? : Creation → Option Nat
  | made id => some id
  | _ => none

end Creation

/-- What came of the request if it was one for a process. -/
def Exchange.creation? (e : Exchange) : Option Creation :=
  match e.call with
  | .spawn .. => some (.ofReply e.reply)
  | _ => none

/-- The processes that came of creations. -/
def identities (log : List Creation) : List Nat :=
  log.filterMap Creation.made?

/-- The identities that creations used up, for a process or for nothing. -/
def used (log : List Creation) : Nat :=
  (identities log).length + log.count .starved

/-- From one state of the counter to a later one these creations were asked for. Below the limit the
next identity is for the process, or lost for want of memory. -/
inductive Numbered (limit : Nat) : Nat → List Creation → Nat → Prop where
  | nil (n : Nat) : Numbered limit n [] n
  | made {n m : Nat} {log : List Creation} (hn : n < limit) (h : Numbered limit (n + 1) log m) :
    Numbered limit n (.made n :: log) m
  | starved {n m : Nat} {log : List Creation} (hn : n < limit) (h : Numbered limit (n + 1) log m) :
    Numbered limit n (.starved :: log) m
  | limited {n m : Nat} {log : List Creation} (hn : limit ≤ n) (h : Numbered limit n log m) :
    Numbered limit n (.limited :: log) m
  | orphaned {n m : Nat} {log : List Creation} (h : Numbered limit n log m) :
    Numbered limit n (.orphaned :: log) m

/-- From one system to a later one these creations were asked for, and the processes that came of
them are those that are new. -/
structure System.Gives (s : System) (log : List Creation) (t : System) : Prop where
  settings : t.settings = s.settings
  numbered : Numbered s.settings.maxProcesses s.nextId log t.nextId
  recorded : ∀ j, t.process? j ≠ none ↔ s.process? j ≠ none ∨ j ∈ identities log

/-! ### The counter -/

theorem identities_append (log more : List Creation) :
    identities (log ++ more) = identities log ++ identities more :=
  List.filterMap_append

theorem used_append (log more : List Creation) : used (log ++ more) = used log + used more := by
  simp only [used, identities_append, List.length_append, List.count_append]
  omega

theorem used_cons (c : Creation) (log : List Creation) : used (c :: log) = used [c] + used log :=
  used_append [c] log

namespace Numbered

variable {limit n m l : Nat} {log more : List Creation}

theorem trans (h : Numbered limit n log m) (h' : Numbered limit m more l) :
    Numbered limit n (log ++ more) l := by
  induction h with
  | nil => exact h'
  | made hn _ ih => exact .made hn (ih h')
  | starved hn _ ih => exact .starved hn (ih h')
  | limited hn _ ih => exact .limited hn (ih h')
  | orphaned _ ih => exact .orphaned (ih h')

theorem split (h : Numbered limit n (log ++ more) l) :
    ∃ m, Numbered limit n log m ∧ Numbered limit m more l := by
  induction log generalizing n with
  | nil => exact ⟨n, .nil n, h⟩
  | cons c log ih =>
    cases h with
    | made hn h => exact (ih h).imp fun _ h => ⟨.made hn h.1, h.2⟩
    | starved hn h => exact (ih h).imp fun _ h => ⟨.starved hn h.1, h.2⟩
    | limited hn h => exact (ih h).imp fun _ h => ⟨.limited hn h.1, h.2⟩
    | orphaned h => exact (ih h).imp fun _ h => ⟨.orphaned h.1, h.2⟩

theorem counter (h : Numbered limit n log m) : m = n + used log := by
  induction h with
  | nil => rfl
  | made _ _ ih | starved _ _ ih =>
    rw [ih, used_cons, ← Nat.add_assoc]
    rfl
  | limited _ _ ih | orphaned _ ih => rw [ih, used_cons, ← Nat.add_assoc]; rfl

theorem le_limit (h : Numbered limit n log m) (hn : n ≤ limit) : m ≤ limit := by
  induction h with
  | nil => exact hn
  | made hlt _ ih | starved hlt _ ih => exact ih hlt
  | limited _ _ ih | orphaned _ ih => exact ih hn

/-- Without a gap the identities are in a row. -/
theorem identities_eq (h : Numbered limit n log m) (hfed : .starved ∉ log) :
    identities log = List.range' n (identities log).length := by
  induction h with
  | nil => rfl
  | made _ _ ih =>
    have hrest := ih fun hmem => hfed (List.mem_cons_of_mem _ hmem)
    change _ :: identities _ = List.range' _ ((identities _).length + 1)
    rw [List.range'_succ, ← hrest]
  | starved => exact absurd List.mem_cons_self hfed
  | limited _ _ ih | orphaned _ ih => exact ih fun hmem => hfed (List.mem_cons_of_mem _ hmem)

end Numbered

theorem used_of_not_mem {log : List Creation} (h : .starved ∉ log) :
    used log = (identities log).length := by
  rw [used, List.count_eq_zero.2 h, Nat.add_zero]

namespace System

variable {s t u : System} {log more : List Creation} {parent : Option Nat} {context : Context}

theorem gives_of_eq (hsettings : t.settings = s.settings) (hcounter : t.nextId = s.nextId)
    (hrecords : ∀ j, t.process? j ≠ none ↔ s.process? j ≠ none) : s.Gives [] t where
  settings := hsettings
  numbered := by rw [hcounter]; exact .nil s.nextId
  recorded j := by simp [hrecords j, identities]

theorem Gives.refl (s : System) : s.Gives [] s :=
  gives_of_eq rfl rfl fun _ => .rfl

theorem Gives.trans (h : s.Gives log t) (h' : t.Gives more u) : s.Gives (log ++ more) u where
  settings := h'.settings.trans h.settings
  numbered := h.numbered.trans (h.settings ▸ h'.numbered)
  recorded j := by rw [h'.recorded, h.recorded, identities_append, List.mem_append, or_assoc]

theorem Gives.quiet (h : s.Gives log t) (h' : t.Gives [] u) : s.Gives log u :=
  List.append_nil log ▸ h.trans h'

theorem gives_modifyProcess (s : System) (id : Nat) (f : Process → Process) :
    s.Gives [] (s.modifyProcess id f) := by
  refine gives_of_eq rfl rfl fun j => ?_
  rw [process?_modifyProcess]
  split
  · rename_i hj
    simp [hj]
  · rfl

/-- An identity is handed out for nothing. -/
theorem gives_counted (hlimit : s.nextId < s.settings.maxProcesses) :
    s.Gives [.starved] s.counted where
  settings := rfl
  numbered := .starved hlimit (.nil _)
  recorded j := by simp [identities, Creation.made?, counted, process?]

theorem settings_entered (s : System) (parent : Option Nat) (context : Context) :
    (s.entered parent context).settings = s.settings := by
  simp only [entered, enter]
  cases parent <;> rfl

theorem gives_entered (hlimit : s.nextId < s.settings.maxProcesses) (parent : Option Nat)
    (context : Context) : s.Gives [.made s.nextId] (s.entered parent context) where
  settings := settings_entered s parent context
  numbered := nextId_entered s parent context ▸ .made hlimit (.nil _)
  recorded j := by
    rw [process?_entered_ne_none_iff]
    simp [identities, Creation.made?, or_comm]

end System

namespace Kernel

variable {k : Kernel} {log : List Creation}

/-! ### Requests for a process -/

/-- What comes of the request of a client. -/
def creation (parent : Option Nat) (k : Kernel) : Creation :=
  .ofReply (Host.answer id (serving (generate parent) k))

theorem serving_congr {α : Type} {x y : KernelM α} (h : x k = y k) :
    serving x k = serving y k := by
  rw [serving, EStateM.adaptExcept, h, serving, EStateM.adaptExcept]

theorem gives_generateUnder (parent : Option Nat) (k : Kernel) :
    k.1.Gives [.ofReply (Host.answer id (serving (generateUnder parent) k))]
      (reached (generateUnder parent k)).1 := by
  obtain ⟨s, a⟩ := k
  have heq := generateUnder_eq parent s a
  by_cases hlimit : s.settings.maxProcesses ≤ s.nextId
  · rw [if_pos hlimit] at heq
    rw [serving_error heq, heq]
    exact ⟨rfl, .limited hlimit (.nil _), fun j => by simp [reached, identities, Creation.ofReply,
      Host.answer, KernelError.toFault, Creation.made?]⟩
  · rw [if_neg hlimit] at heq
    have hlt := Nat.lt_of_not_le hlimit
    cases hcreate : Context.create s.settings.heapBytes s.settings.stackBytes
        (roomFor s.settings a) with
    | ok result =>
      rw [hcreate] at heq
      rw [serving_ok heq, heq]
      exact System.gives_entered hlt parent result.1
    | error e =>
      rw [hcreate] at heq
      rw [serving_error heq, heq]
      exact System.gives_counted hlt

theorem gives_generate (parent : Option Nat) (k : Kernel) :
    k.1.Gives [creation parent k] (reached (generate parent k)).1 := by
  cases parent with
  | none => exact gives_generateUnder none k
  | some parent =>
    have heq := generate_some_eq parent k
    by_cases hparent : k.1.IsRegistered parent
    · rw [if_pos hparent] at heq
      rw [creation, serving_congr heq, heq]
      exact gives_generateUnder (some parent) k
    · rw [if_neg hparent] at heq
      rw [creation, serving_error heq, heq]
      exact ⟨rfl, .orphaned (.nil _), fun j => by simp [reached, identities, Creation.ofReply,
        Host.answer, KernelError.toFault, Creation.made?]⟩

/-- A program gets the same reply as a client would. -/
theorem gives_spawn (parent priority : Nat) (name : List UInt8) (k : Kernel) :
    k.1.Gives [.ofReply (Host.answer id (host.spawn parent priority name k))]
      (reached (host.spawn parent priority name k)).1 := by
  have hgives := gives_generate (some parent) k
  have heq := spawn_eq parent priority name k
  change k.1.Gives [.ofReply (Host.answer id (serving (spawn parent priority name) k))]
    (reached (serving (spawn parent priority name) k)).1
  rw [creation] at hgives
  cases hgenerate : generate (some parent) k with
  | ok child k' =>
    rw [hgenerate] at heq hgives
    rw [serving_ok hgenerate] at hgives
    rw [serving_ok heq]
    exact hgives.quiet (System.gives_modifyProcess k'.1 child _)
  | error e k' =>
    rw [hgenerate] at heq hgives
    rw [serving_error hgenerate] at hgives
    rw [serving_error heq]
    exact hgives

/-! ### Other requests -/

theorem gives_bindImage (id : Nat) (image : Image) (kept : Bool) (k : Kernel) :
    k.1.Gives [] (reached (bindImage id image kept k)).1 := by
  rcases bindImage_cases id image kept k with ⟨-, heq⟩ | ⟨e, heq⟩
  · rw [heq]
    exact System.gives_modifyProcess k.1 id _
  · rw [heq]
    exact (system_dropHandle image kept k).symm ▸ .refl k.1

theorem gives_bindProgram (id : Nat) (bytes : List UInt8) (k : Kernel) :
    k.1.Gives [] (reached (bindProgram id bytes k)).1 := by
  rcases bindProgram_cases id bytes k with ⟨image, a, -, -, heq⟩ | ⟨e, heq⟩
  · rw [heq]
    exact System.gives_modifyProcess k.1 id _
  · rw [heq]
    exact .refl k.1

theorem gives_assign (s : System) (workers : List Worker) :
    s.Gives [] ({ s with workers } : System) :=
  System.gives_of_eq rfl rfl fun _ => .rfl

theorem gives_bind (target : Nat) (image : Image) (k : Kernel) :
    k.1.Gives [] (reached (host.bind target image k)).1 := by
  rcases host_bind_cases target image k with ⟨-, heq⟩ | ⟨e, heq⟩
  · rw [heq]
    exact System.gives_modifyProcess k.1 target _
  · rw [heq]
    exact .refl k.1

theorem gives_dispatch (id : Nat) (k : Kernel) :
    k.1.Gives [] (reached (dispatch id k)).1 := by
  rcases dispatch_cases id k with ⟨index, -, heq⟩ | ⟨e, heq⟩
  · rw [heq]
    exact gives_assign k.1 _
  · rw [heq]
    exact .refl k.1

theorem reached_host_dispatch (target : Nat) (k : Kernel) :
    reached (host.dispatch target k) = reached (dispatch target k) := by
  change reached (serving (dispatch target >>= fun _ => pure ()) k) = _
  rw [reached_serving]
  simp only [bind, EStateM.bind]
  cases dispatch target k <;> rfl

theorem gives_print (origin : Nat) (text : String) (k : Kernel) :
    k.1.Gives [] (reached (host.print origin text k)).1 := by
  rw [reached_host_print]
  exact System.gives_of_eq rfl rfl fun _ => .rfl

/-! ### Ends -/

theorem gives_release (id : Nat) (k : Kernel) : k.1.Gives [] (release id k).1 := by
  obtain ⟨s, a⟩ := k
  simp only [release]
  split
  · exact .refl s
  · split <;> exact System.gives_modifyProcess s id _

theorem gives_unregister (s : System) (id : Nat) : s.Gives [] (s.unregister id) :=
  System.gives_of_eq rfl rfl fun _ => .rfl

theorem gives_hung (s : System) (id : Nat) :
    s.Gives [] ((s.unregister id).modifyProcess id (·.hang)) :=
  (gives_unregister s id).quiet (System.gives_modifyProcess _ id _)

theorem gives_detach (s : System) (ids : List Nat) : s.Gives [] (detach s ids).2 := by
  induction ids with
  | nil => exact .refl s
  | cons id rest ih =>
    simp only [detach]
    split
    · exact ih.quiet (gives_hung _ id)
    · exact ih

theorem gives_sweep (pending : List Ending) (k : Kernel) : k.1.Gives [] (sweep pending k).1 := by
  fun_induction sweep pending k with
  | case1 k => exact .refl k.1
  | case2 k id rest ih => exact (gives_release id k).quiet ih
  | case3 k id rest found ih => exact (gives_detach k.1 (k.1.childrenOf id)).quiet ih

theorem gives_halt (id : Nat) (k : Kernel) : k.1.Gives [] (reached (halt id k)).1 := by
  rw [halt_eq]
  split
  · exact (gives_unregister k.1 id).quiet (gives_release id (k.1.unregister id, k.2))
  · exact .refl k.1

theorem gives_haltSubtree (id : Nat) (k : Kernel) :
    k.1.Gives [] (reached (haltSubtree id k)).1 := by
  rw [haltSubtree_eq]
  split
  · exact (gives_hung k.1 id).quiet (gives_sweep _ (_, k.2))
  · exact .refl k.1

/-- No process comes of the end of another one. -/
theorem ends_gives (s : System) (log : List Creation) :
    Ends fun k => s.Gives log k.1 where
  relabel k id f h _ := h.quiet (System.gives_modifyProcess k.1 id f)
  worker _ _ _ h _ := h.quiet (System.gives_of_eq rfl rfl fun _ => .rfl)
  keepAlive _ _ h := h.quiet (System.gives_of_eq rfl rfl fun _ => .rfl)
  halt id := .of_reached fun k h => h.quiet (gives_halt id k)
  haltSubtree id := .of_reached fun k h => h.quiet (gives_haltSubtree id k)
  release k id h _ := h.quiet (gives_release id k)

/-! ### Quanta -/

theorem gives_settle (id : Nat) (quantum : Quantum) (k : Kernel) :
    k.1.Gives [] (settle id quantum k).1 := by
  have hhung := System.gives_modifyProcess k.1 id (·.hang)
  cases quantum with
  | idle | yielded => exact .refl k.1
  | finished => exact hhung
  | faulted fault => exact Upholds.attempt ((ends_gives k.1 []).haltSubtree id) hhung
  | halted recursive =>
    cases recursive with
    | false => exact Upholds.attempt ((ends_gives k.1 []).halt id) hhung
    | true => exact Upholds.attempt ((ends_gives k.1 []).haltSubtree id) hhung

/-- What came of the requests for processes among these. -/
def creationsIn (requests : List Exchange) : List Creation :=
  requests.filterMap Exchange.creation?

/-- Whatever a program does, all its processes were asked for. -/
theorem keeps_gives (id : Nat) (image : Image) (s : System) :
    (Runner.mk id image host).logged.Keeps fun m => True ∧
      s.Gives (creationsIn m.host.2) m.host.1 := by
  have hquiet {log : List Exchange} {e : Exchange} {t u : System} (he : e.creation? = none)
      (h : s.Gives (creationsIn log) t) (htu : t.Gives [] u) :
      s.Gives (creationsIn (log ++ [e])) u := by
    simpa [creationsIn, he] using h.quiet htu
  refine (Runner.keeps_true _).logged (C := fun g => s.Gives (creationsIn g.2) g.1) ?_ ?_ ?_ ?_
  · intro priority name m _ log h
    simpa [creationsIn, Exchange.creation?] using
      h.trans (gives_spawn id priority name (m.host, m.arena))
  · exact fun target entry m _ log h => hquiet rfl h (gives_bind target _ (m.host, m.arena))
  · exact fun target m _ log h => hquiet rfl h
      (reached_host_dispatch target (m.host, m.arena) ▸ gives_dispatch target (m.host, m.arena))
  · exact fun text m _ log h => hquiet rfl h (gives_print id text (m.host, m.arena))

theorem gives_runQuantum (id budget : Nat) (image : Image) (context : Context) (k : Kernel) :
    k.1.Gives (creationsIn (runLog id budget image context k))
      (runQuantum id budget image context k).2.1 := by
  have hbegin : True ∧ k.1.Gives [] k.1 := ⟨trivial, .refl k.1⟩
  have hrun : k.1.Gives (creationsIn (runLog id budget image context k))
      (reached (runEnd id budget image context k)).host := by
    rw [runEnd, ← Runner.forget_reached ⟨id, image, host⟩ budget (machineOf context image k)]
    exact (((keeps_gives id image k.1).run budget).reached
      (s := (machineOf context image k).recording) hbegin).2
  rw [runQuantum_eq]
  generalize runEnd id budget image context k = ended at hrun ⊢
  have hsuspended : (reached ended).host.Gives [] (suspend id (reached ended)).1 :=
    System.gives_modifyProcess _ id _
  exact (hrun.quiet hsuspended).quiet (gives_settle id (quantumOfEnd ended) _)

theorem gives_execute (id budget : Nat) (k : Kernel) :
    k.1.Gives (creationsIn (quantumLog id budget k)) (execute id budget k).2.1 := by
  obtain ⟨s, a⟩ := k
  have hticked := System.gives_modifyProcess s id (·.tick)
  simp only [quantumLog, execute]
  cases s.process? id with
  | none => exact .refl s
  | some p =>
    cases hactive : p.active <;> cases himage : p.image <;> cases hcontext : p.context <;>
      simp only [hactive, himage, hcontext]
    case true.some.none => exact hticked
    case true.some.some => exact hticked.trans (gives_runQuantum id budget _ _ (ticked id (s, a)))
    all_goals exact .refl s

/-- What came of the requests in some quanta. -/
def creationsDuring (stints : List Stint) : List Creation :=
  stints.flatMap fun stint => creationsIn stint.requests

theorem Turns.gives {k k' : Kernel} {stints : List Stint} (h : Turns k stints k') :
    k.1.Gives (creationsDuring stints) k'.1 := by
  induction h with
  | refl k => exact .refl k.1
  | tick id _ ih => exact (System.gives_modifyProcess _ id _).trans ih
  | execute id budget _ ih => exact (gives_execute id budget _).trans ih

/-! ### Histories -/

/-- What comes of the requests for processes in an operation, in their order. -/
def Op.creations : Op → Kernel → List Creation
  | .generate parent, k => [creation parent k]
  | .spawnChild parent, k => [creation (some parent) k]
  | op, k => creationsDuring (op.stints k)

/-- What comes of those in operations one after the other. -/
def creationsOf : List Op → Kernel → List Creation
  | [], _ => []
  | op :: rest, k => op.creations k ++ creationsOf rest (perform k op)

theorem gives_perform (op : Op) (k : Kernel) :
    k.1.Gives (op.creations k) (perform k op).1 := by
  have hends := ends_gives k.1 []
  cases op with
  | generate parent => exact gives_generate parent k
  | spawnChild parent => exact gives_generate (some parent) k
  | bindProgram id bytes => exact gives_bindProgram id bytes k
  | bindImage id image kept => exact gives_bindImage id image kept k
  | dispatch id => exact gives_dispatch id k
  | execute id budget => exact (Turns.execute id budget (.refl _)).gives
  | halt id => exact gives_halt id k
  | haltSubtree id => exact gives_haltSubtree id k
  | close id => exact hends.close (.refl k.1) id
  | closeSubtree id => exact hends.closeSubtree (.refl k.1) id
  | hang id | wake id | tick id | setPriority id priority | setName id name =>
    exact System.gives_modifyProcess k.1 id _
  | sleepWorker index | wakeWorker index | setWorkerPriority index priority =>
    exact System.gives_of_eq rfl rfl fun _ => .rfl
  | workerPass index => exact (turns_workerPass index k).gives
  | runPass => exact (turns_runPass k).gives
  | runUntilIdle limit => exact (turns_runMore 0 limit k).gives
  | shutdown => exact hends.shutdown (.refl k.1)

theorem gives_performAll (ops : List Op) (k : Kernel) :
    k.1.Gives (creationsOf ops k) (performAll k ops).1 := by
  induction ops generalizing k with
  | nil => exact .refl k.1
  | cons op rest ih => exact (gives_perform op k).trans (ih (perform k op))

/-- A kernel begins with the first identity. -/
theorem counter_create {settings : Settings} (hk : Kernel.create settings = .ok k) :
    k.1.settings = settings ∧ k.1.nextId = 0 := by
  obtain ⟨s, hs, heq⟩ := ok_of_bind hk
  cases heq
  obtain ⟨storage, rfl⟩ := System.create_eq_ok hs
  exact ⟨rfl, rfl⟩

/-- The identities after any history. Whatever is on record came of a creation, and the counter is
what creations used up, those that were starved included. Every creation found the counter at what
was used up before: it got this identity if it made a process, and it was refused for want of one if
that was the limit. As long as no creation was starved, processes are numbered in a row, the counter
is their number, and the limit was reached only when there were as many of them. -/
theorem identities_performAll {settings : Settings} (hk : Kernel.create settings = .ok k)
    (ops : List Op) :
    (∀ id, (performAll k ops).1.process? id ≠ none ↔ id ∈ identities (creationsOf ops k)) ∧
      (performAll k ops).1.nextId = used (creationsOf ops k) ∧
      (∀ log c more, creationsOf ops k = log ++ c :: more →
        (∀ id, c = .made id → id = used log ∧ used log < settings.maxProcesses) ∧
        (c = .starved → used log < settings.maxProcesses) ∧
        (c = .limited → used log = settings.maxProcesses)) ∧
      (.starved ∉ creationsOf ops k →
        (performAll k ops).1.nextId = (identities (creationsOf ops k)).length ∧
        identities (creationsOf ops k) = List.range (identities (creationsOf ops k)).length ∧
        ∀ log more, creationsOf ops k = log ++ .limited :: more →
          (identities log).length = settings.maxProcesses) := by
  obtain ⟨hsettings, hcounter⟩ := counter_create hk
  obtain ⟨-, hprocesses, -⟩ := create_eq_ok hk
  have hgives := gives_performAll ops k
  generalize creationsOf ops k = log at hgives ⊢
  have hnumbered : Numbered settings.maxProcesses 0 log (performAll k ops).1.nextId := by
    have h := hgives.numbered
    rwa [hsettings, hcounter] at h
  have hstep : ∀ before c after, log = before ++ c :: after →
      (∀ id, c = .made id → id = used before ∧ used before < settings.maxProcesses) ∧
        (c = .starved → used before < settings.maxProcesses) ∧
        (c = .limited → used before = settings.maxProcesses) := by
    rintro before c after rfl
    obtain ⟨n, hbefore, hafter⟩ := hnumbered.split
    have hn := hbefore.le_limit (Nat.zero_le _)
    obtain rfl : n = used before := by rw [hbefore.counter, Nat.zero_add]
    cases hafter with
    | made hlt _ => exact ⟨fun id hid => ⟨(Creation.made.inj hid).symm, hlt⟩, nofun, nofun⟩
    | starved hlt _ => exact ⟨nofun, fun _ => hlt, nofun⟩
    | limited hle _ => exact ⟨nofun, nofun, fun _ => Nat.le_antisymm hn hle⟩
    | orphaned _ => exact ⟨nofun, nofun, nofun⟩
  have hused : (performAll k ops).1.nextId = used log := by
    rw [hnumbered.counter, Nat.zero_add]
  refine ⟨fun id => ?_, hused, hstep, fun hfed => ⟨?_, ?_, ?_⟩⟩
  · rw [hgives.recorded]
    simp [System.process?, hprocesses]
  · rw [hused, used_of_not_mem hfed]
  · rw [List.range_eq_range']
    exact hnumbered.identities_eq hfed
  · intro before after hsplit
    rw [← used_of_not_mem fun hmem => hfed (hsplit ▸ List.mem_append_left _ hmem)]
    exact (hstep before .limited after hsplit).2.2 rfl

/-- There is room for two processes and a program. -/
def tightSettings : Settings where
  arenaBytes := 300
  maxArenaBytes := 300
  workers := 1
  priorityBudget := 1000
  heapBytes := 64
  stackBytes := 64
  maxProcesses := 4

def tightKernel : Kernel :=
  ({ settings := tightSettings
     workers := [{ priority := 1000 }]
     console := {} }, .withLimit 300 300)

/-- A program spawns a child and then one that is starved, for which the two of them are halted. -/
def tightHistory : List Op :=
  [.generate none, .bindProgram 0 [2, 0, 0, 0, 5, 0, 0, 2, 0, 0, 0, 5, 0, 0], .execute 0 10,
    .generate none, .generate none]

/-- One identity is lost, and the limit of four is reached with three processes. -/
theorem identities_of_tightHistory :
    Kernel.create tightSettings = .ok tightKernel ∧
      creationsOf tightHistory tightKernel =
        [.made 0, .made 1, .starved, .made 3, .limited] ∧
      (performAll tightKernel tightHistory).1.nextId = 4 ∧
      (∀ id, (performAll tightKernel tightHistory).1.process? id ≠ none ↔ id ∈ [0, 1, 3]) ∧
      used [.made 0, .made 1, .starved, .made 3] = tightSettings.maxProcesses := by
  have hcreate : Kernel.create tightSettings = .ok tightKernel := rfl
  have hlog : creationsOf tightHistory tightKernel =
      [.made 0, .made 1, .starved, .made 3, .limited] := by decide +kernel
  obtain ⟨hrecorded, hcounter, hstep, -⟩ := identities_performAll hcreate tightHistory
  rw [hlog] at hrecorded hcounter hstep
  have hlimit := hstep [.made 0, .made 1, .starved, .made 3] .limited [] rfl
  exact ⟨hcreate, hlog, hcounter, hrecorded, hlimit.2.2 rfl⟩

def crampedSettings : Settings where
  arenaBytes := 1048576
  maxArenaBytes := 4194304
  workers := 1
  priorityBudget := 1000
  heapBytes := 5000000
  stackBytes := 1024
  maxProcesses := 1

/-- With no room for any process the limit is reached all the same. -/
theorem identities_without_processes :
    ∃ k, Kernel.create crampedSettings = .ok k ∧
      creationsOf [.generate none, .generate none] k = [.starved, .limited] ∧
      (performAll k [.generate none, .generate none]).1.processes.size = 0 ∧
      (performAll k [.generate none, .generate none]).1.nextId = 1 :=
  ⟨_, rfl, by decide +kernel, by decide +kernel, by decide +kernel⟩

end Kernel

end BytecodeKernel
