import BytecodeKernel.Proofs.Machine.Runs
/-!
Transcripts: the requests of a run with the answers it got, oldest first. Any host can be made to
keep one. A run under such a host is the run under the host itself, once the transcript is
forgotten, so whatever is read in the transcript is true of the run.
-/

namespace BytecodeKernel

/-- A request of a program to its host. -/
inductive HostCall where
  | spawn (parent priority : Nat) (name : List UInt8)
  | bind (target entry : Nat)
  | dispatch (target : Nat)
  | print (origin : Nat) (text : String)
deriving DecidableEq

/-- A request and its answer, which is the identity of a child or zero if it was granted. -/
structure Exchange where
  call : HostCall
  reply : Except Fault Nat
deriving DecidableEq

/-- A host with its transcript. -/
abbrev Logged (σ : Type) := σ × List Exchange

namespace Host

variable {σ α : Type}

/-- The answer of a service. -/
def answer {τ : Type} (reply : α → Nat) : EStateM.Result Fault τ α → Except Fault Nat
  | .ok v _ => .ok (reply v)
  | .error e _ => .error e

/-- A service that enters its request and the answer. -/
def logging (call : HostCall) (reply : α → Nat) (x : HostM σ α) : HostM (Logged σ) α :=
  fun ((g, log), a) =>
    match x (g, a) with
    | .ok v (g, a) => .ok v ((g, log ++ [⟨call, .ok (reply v)⟩]), a)
    | .error e (g, a) => .error e ((g, log ++ [⟨call, .error e⟩]), a)

/-- The host that keeps a transcript. -/
def logged (h : Host σ) : Host (Logged σ) where
  spawn parent priority name :=
    logging (.spawn parent priority name) id (h.spawn parent priority name)
  bind target image := logging (.bind target image.entry) (fun _ => 0) (h.bind target image)
  dispatch target := logging (.dispatch target) (fun _ => 0) (h.dispatch target)
  print origin text := logging (.print origin text) (fun _ => 0) (h.print origin text)

theorem reached_logging (call : HostCall) (reply : α → Nat) (x : HostM σ α) (g : Logged σ)
    (a : Arena) : reached (logging call reply x (g, a)) =
      (((reached (x (g.1, a))).1, g.2 ++ [⟨call, answer reply (x (g.1, a))⟩]),
        (reached (x (g.1, a))).2) := by
  rw [logging]
  cases x (g.1, a) <;> rfl

end Host

variable {σ α β : Type}

/-- The machine without the transcript. -/
def Machine.forget (m : Machine (Logged σ)) : Machine σ :=
  { m with host := m.host.1 }

/-- The machine with a transcript that is empty yet. -/
def Machine.recording (m : Machine σ) : Machine (Logged σ) :=
  { m with host := (m.host, []) }

/-- The end of a run without the transcript. -/
def forgetEnd : EStateM.Result Fault (Machine (Logged σ)) α → EStateM.Result Fault (Machine σ) α
  | .ok v m => .ok v m.forget
  | .error e m => .error e m.forget

@[simp] theorem reached_forgetEnd (x : EStateM.Result Fault (Machine (Logged σ)) α) :
    reached (forgetEnd x) = (reached x).forget := by
  cases x <;> rfl

def Runner.logged (r : Runner σ) : Runner (Logged σ) :=
  { origin := r.origin, image := r.image, host := r.host.logged }

@[simp] theorem Runner.image_logged (r : Runner σ) : r.logged.image = r.image := rfl

/-- The requests of a run. -/
def Runner.transcript (r : Runner σ) (budget : Nat) (m : Machine σ) : List Exchange :=
  (reached (r.logged.run budget m.recording)).host.2

/-! ### What is the same once the transcript is forgotten -/

/-- The action with a transcript does what the one without does. -/
def Mirrors (x : Exec (Logged σ) α) (y : Exec σ α) : Prop :=
  ∀ m, forgetEnd (x m) = y m.forget

namespace Mirrors

theorem pure (v : α) : Mirrors (pure v : Exec (Logged σ) α) (pure v) :=
  fun _ => rfl

theorem throw (e : Fault) : Mirrors (throw e : Exec (Logged σ) α) (throw e) :=
  fun _ => rfl

theorem bind {x : Exec (Logged σ) α} {y : Exec σ α} {f : α → Exec (Logged σ) β}
    {g : α → Exec σ β} (hx : Mirrors x y) (hf : ∀ v, Mirrors (f v) (g v)) :
    Mirrors (x >>= f) (y >>= g) := by
  intro m
  have hfirst := hx m
  simp only [Bind.bind, EStateM.bind]
  rw [← hfirst]
  cases x m with
  | ok v m => exact hf v m
  | error e m => rfl

theorem get_bind {f : Machine (Logged σ) → Exec (Logged σ) β} {g : Machine σ → Exec σ β}
    (h : ∀ m, Mirrors (f m) (g m.forget)) : Mirrors (get >>= f) (get >>= g) :=
  fun m => h m m

theorem ite {c : Prop} [Decidable c] {x x' : Exec (Logged σ) α} {y y' : Exec σ α}
    (hx : Mirrors x y) (hx' : Mirrors x' y') :
    Mirrors (if c then x else x') (if c then y else y') := by
  split
  · exact hx
  · exact hx'

/-- A step that is taken only in some states, with the same continuation in all. -/
theorem optional {c : Prop} [Decidable c] {x : Exec (Logged σ) α} {x' : Exec σ α}
    {y : Exec (Logged σ) β} {y' : Exec σ β} (hx : Mirrors x x') (hy : Mirrors y y') :
    Mirrors (if c then x >>= fun _ => y else y) (if c then x' >>= fun _ => y' else y') :=
  ite (bind hx fun _ => hy) hy

theorem cursor : Mirrors (σ := σ) Exec.cursor Exec.cursor :=
  fun _ => rfl

theorem skip (count : Nat) : Mirrors (σ := σ) (Exec.skip count) (Exec.skip count) :=
  fun _ => rfl

theorem jumpTo (cursor : Nat) : Mirrors (σ := σ) (Exec.jumpTo cursor) (Exec.jumpTo cursor) :=
  fun _ => rfl

theorem ofMemory (x : Except MemoryError α) :
    Mirrors (σ := σ) (Exec.ofMemory x) (Exec.ofMemory x) := by
  cases x with
  | ok v => exact pure v
  | error e => exact throw _

theorem onStack (x : StackM α) : Mirrors (σ := σ) (Exec.onStack x) (Exec.onStack x) := by
  intro m
  simp only [Exec.onStack, Machine.forget]
  cases x (m.stack, m.arena) <;> rfl

theorem onHeap (x : HeapM α) : Mirrors (σ := σ) (Exec.onHeap x) (Exec.onHeap x) := by
  intro m
  simp only [Exec.onHeap, Machine.forget]
  cases x (m.heap, m.arena) <;> rfl

theorem onHost (call : HostCall) (reply : α → Nat) (x : HostM σ α) :
    Mirrors (Exec.onHost (Host.logging call reply x)) (Exec.onHost x) := by
  intro m
  simp only [Exec.onHost, Host.logging, Machine.forget]
  cases x (m.host.1, m.arena) <;> rfl

variable (r : Runner σ)

theorem pop : Mirrors (σ := σ) Exec.pop Exec.pop :=
  onStack _

theorem push (v : Int64) : Mirrors (σ := σ) (Exec.push v) (Exec.push v) :=
  onStack _

theorem popProcess : Mirrors (σ := σ) Exec.popProcess Exec.popProcess := by
  refine bind pop fun v => ?_
  cases ProcessId.ofSlot? v with
  | some id => exact pure id
  | none => exact throw _

theorem binary (f : Int64 → Int64 → Int64) :
    Mirrors (σ := σ) (Exec.binary f) (Exec.binary f) :=
  bind pop fun _ => bind pop fun _ => push _

theorem divide (offset : Nat) (f : Int64 → Int64 → Int64) :
    Mirrors (σ := σ) (Exec.divide offset f) (Exec.divide offset f) := by
  refine bind pop fun lhs => bind pop fun rhs => ?_
  exact optional (throw _) (push _)

theorem locate (o : Opcode) (offset length : Nat) :
    Mirrors (r.logged.locate o offset length) (r.locate o offset length) := by
  refine ite (throw _) ?_
  simp only [Runner.image_logged]
  cases r.image.addressOf? offset with
  | some addr => exact pure addr
  | none => exact throw _

theorem operand (o : Opcode) (width : Nat) :
    Mirrors (r.logged.operand o width) (r.operand o width) := by
  refine bind cursor fun offset => bind (locate r o offset width) fun addr => ?_
  refine get_bind fun m => bind (ofMemory _) fun bytes => ?_
  exact bind (skip width) fun _ => pure _

theorem signedOperand (o : Opcode) (width : Nat) :
    Mirrors (r.logged.signedOperand o width) (r.signedOperand o width) :=
  bind (operand r o width) fun _ => pure _

theorem lengthOperand (o : Opcode) : Mirrors (r.logged.lengthOperand o) (r.lengthOperand o) :=
  bind (operand r o 2) fun _ => pure _

theorem literal (o : Opcode) (length : Nat) :
    Mirrors (r.logged.literal o length) (r.literal o length) := by
  refine ite (pure _) ?_
  refine bind cursor fun offset => bind (locate r o offset length) fun addr => ?_
  refine get_bind fun m => bind (ofMemory _) fun bytes => ?_
  exact bind (skip length) fun _ => pure _

theorem heapLiteral (o : Opcode) (length : Nat) :
    Mirrors (r.logged.heapLiteral o length) (r.heapLiteral o length) := by
  refine ite (pure _) ?_
  refine bind cursor fun offset => bind (locate r o offset length) fun src => ?_
  refine bind (onHeap _) fun addr => bind (onHeap _) fun _ => ?_
  exact bind (skip length) fun _ => pure _

theorem offsetOperand (o : Opcode) (last : Int) :
    Mirrors (r.logged.offsetOperand o last) (r.offsetOperand o last) :=
  bind (signedOperand r o 4) fun _ => ite (pure _) (throw _)

theorem popText : Mirrors (σ := σ) Runner.popText Runner.popText := by
  refine bind pop fun v => ?_
  cases Address.ofSlot? v with
  | none => exact throw _
  | some addr =>
    refine ite (pure _) (get_bind fun m => ?_)
    exact bind (ofMemory _) fun bytes => pure _

theorem checkCall : Mirrors r.logged.checkCall r.checkCall := by
  refine bind pop fun v => ?_
  exact ite (throw _) (pure _)

theorem perform (o : Opcode) (offset : Nat) :
    Mirrors (r.logged.perform o offset) (r.perform o offset) := by
  cases o with
  | push => exact bind (signedOperand r _ 4) fun _ => bind (push _) fun _ => pure _
  | pushLong => exact bind (signedOperand r _ 8) fun _ => bind (push _) fun _ => pure _
  | spawn =>
    refine bind (signedOperand r _ 4) fun priority => bind (lengthOperand r _) fun length => ?_
    refine bind (literal r _ length) fun name => bind (onHost _ _ _) fun child => ?_
    exact bind (push _) fun _ => pure _
  | bindAt =>
    refine bind popProcess fun target => bind (offsetOperand r _ _) fun entry => ?_
    exact bind (onHost _ _ _) fun _ => pure _
  | dispatch => exact bind popProcess fun target => bind (onHost _ _ _) fun _ => pure _
  | add | sub | mul | logShift | bitAnd | bitOr | bitXor | shiftLeft | shiftRight =>
    exact bind (binary _) fun _ => pure _
  | equals | logAnd | logOr | greater | less | greaterEq | lessEq =>
    exact bind (binary _) fun _ => pure _
  | div | mod => exact bind (divide offset _) fun _ => pure _
  | bitNot => exact bind pop fun _ => bind (push _) fun _ => pure _
  | storeLocal | loadLocal | deref | arrayRef => exact bind (pure _) fun _ => pure _
  | jump => exact bind (offsetOperand r _ _) fun _ => bind (jumpTo _) fun _ => pure _
  | branch | drop => exact bind pop fun _ => pure _
  | pushText =>
    refine bind (lengthOperand r _) fun length => bind (heapLiteral r _ length) fun addr => ?_
    exact bind (push _) fun _ => pure _
  | print => exact bind popText fun text => bind (onHost _ _ _) fun _ => pure _
  | call => exact bind (checkCall r) fun _ => pure _
  | halt => exact bind pop fun _ => pure _

theorem step : Mirrors r.logged.step r.step := by
  refine bind cursor fun offset => ?_
  simp only [Runner.image_logged]
  cases r.image.addressOf? offset with
  | none => exact throw _
  | some addr =>
    refine get_bind fun m => bind (ofMemory _) fun byte => ?_
    cases Opcode.ofByte? byte with
    | none => exact throw _
    | some o => exact bind (skip 1) fun _ => perform r o offset

theorem unwind (depth : Nat) : Mirrors (r.logged.unwind depth) (r.unwind depth) := by
  induction depth with
  | zero => exact pure _
  | succ depth ih =>
    refine bind cursor fun cursor => ?_
    refine ite (bind (onStack _) fun target => ?_) (pure _)
    exact bind (jumpTo _) fun _ => ih

/-- The run is the same whether a transcript is kept or not. -/
theorem run (budget : Nat) : Mirrors (r.logged.run budget) (r.run budget) := by
  induction budget with
  | zero =>
    refine get_bind fun m => ?_
    exact ite (pure _) (pure _)
  | succ budget ih =>
    refine get_bind fun m => bind (unwind r _) fun _ => bind cursor fun cursor => ?_
    refine ite (pure _) (bind (step r) fun ended => ?_)
    cases ended with
    | some outcome => exact pure _
    | none => exact ih

end Mirrors

theorem Mirrors.reached {x : Exec (Logged σ) α} {y : Exec σ α} (h : Mirrors x y)
    (m : Machine (Logged σ)) :
    (BytecodeKernel.reached (x m)).forget = BytecodeKernel.reached (y m.forget) := by
  rw [← reached_forgetEnd, h m]

/-! ### What runs keep of the transcript -/

section Keeps

variable {P : Machine σ → Prop} {C : Logged σ → Prop}

/-- What the services keep of the host and its transcript is not touched by anything else. -/
theorem Mirrors.keeps {x : Exec (Logged σ) α} {y : Exec σ α} (h : Mirrors x y)
    (hy : Preserves P y) (hhost : ∀ m, (BytecodeKernel.reached (x m)).host = m.host) :
    Preserves (fun m => P m.forget ∧ C m.host) x := by
  refine .of_reached fun m hm => ⟨?_, ?_⟩
  · rw [h.reached]
    exact hy.reached hm.1
  · rw [hhost]
    exact hm.2

/-- A service and the entry of its request keep what holds of a host and its transcript. -/
def Host.Enters (P : Machine σ → Prop) (C : Logged σ → Prop) (call : HostCall) (reply : α → Nat)
    (x : HostM σ α) : Prop :=
  ∀ m, P m → ∀ log, C (m.host, log) →
    C ((reached (x (m.host, m.arena))).1,
      log ++ [⟨call, Host.answer reply (x (m.host, m.arena))⟩])

theorem Host.Enters.keeps {call : HostCall} {reply : α → Nat} {x : HostM σ α}
    (hC : Host.Enters P C call reply x) (hx : Preserves P (Exec.onHost x)) :
    Preserves (fun m => P m.forget ∧ C m.host) (Exec.onHost (Host.logging call reply x)) := by
  refine .of_reached fun m hm => ⟨?_, ?_⟩
  · rw [(Mirrors.onHost call reply x).reached]
    exact hx.reached hm.1
  · rw [Exec.reached_onHost, Host.reached_logging]
    exact hC m.forget hm.1 m.host.2 hm.2

/-- What a run keeps, with what its services keep of the host and the transcript. -/
theorem Runner.Keeps.logged {r : Runner σ} (h : r.Keeps P)
    (hspawn : ∀ priority name, Host.Enters P C (.spawn r.origin priority name) id
      (r.host.spawn r.origin priority name))
    (hbind : ∀ target entry, Host.Enters P C (.bind target entry) (fun _ => 0)
      (r.host.bind target (r.image.enteredAt entry)))
    (hdispatch : ∀ target, Host.Enters P C (.dispatch target) (fun _ => 0)
      (r.host.dispatch target))
    (hprint : ∀ text, Host.Enters P C (.print r.origin text) (fun _ => 0)
      (r.host.print r.origin text)) :
    r.logged.Keeps fun m => P m.forget ∧ C m.host where
  cursor m cursor hm := ⟨h.cursor m.forget cursor hm.1, hm.2⟩
  push v := (Mirrors.push v).keeps (h.push v) fun m => by
    rw [Exec.push, Exec.reached_onStack]
  pop := Mirrors.pop.keeps h.pop fun m => by
    rw [Exec.pop, Exec.reached_onStack]
  popFrame := (Mirrors.onStack _).keeps h.popFrame fun m => by
    rw [Exec.reached_onStack]
  malloc size := (Mirrors.onHeap _).keeps (h.malloc size) fun m => by
    rw [Exec.reached_onHeap]
  copyIn dst src length := (Mirrors.onHeap _).keeps (h.copyIn dst src length) fun m => by
    rw [Exec.reached_onHeap]
  spawn priority name := (hspawn priority name).keeps (h.spawn priority name)
  bind target entry := (hbind target entry).keeps (h.bind target entry)
  dispatch target := (hdispatch target).keeps (h.dispatch target)
  print text := (hprint text).keeps (h.print text)

end Keeps

/-- What a run reaches is what it reaches with a transcript. -/
theorem Runner.forget_reached (r : Runner σ) (budget : Nat) (m : Machine σ) :
    (reached (r.logged.run budget m.recording)).forget = reached (r.run budget m) := by
  rw [(Mirrors.run r budget).reached]
  rfl

end BytecodeKernel
