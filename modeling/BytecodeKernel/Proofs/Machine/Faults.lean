import BytecodeKernel.Proofs.Machine.Runs
import BytecodeKernel.Proofs.Memory.Ends
/-!
Whose fault a fault is. That the program cannot be read on is found where opcodes, operands and
targets are read, and nowhere else: the stack, the heap and the operations on values have faults of
their own kinds. A host may give any fault as its answer, and is told apart as the one that did.
-/

namespace BytecodeKernel

variable {σ τ α β : Type}

/-- The program cannot be read on from where the cursor is. -/
def Fault.Misread : Fault → Prop
  | .unknownOpcode .. | .unexpectedEnd .. | .invalidJump .. => True
  | _ => False

/-! ### Stacks -/

/-- Faults of the action have nothing to do with how the program reads. -/
def Literate (x : EStateM Fault τ α) : Prop :=
  ∀ s, Ends (x s) (fun _ _ => True) fun e _ => ¬ e.Misread

namespace Literate

theorem pure (v : α) : Literate (pure v : EStateM Fault τ α) :=
  fun _ => trivial

theorem throw {e : Fault} (h : ¬ e.Misread) : Literate (throw e : EStateM Fault τ α) :=
  fun _ => h

theorem bind {x : EStateM Fault τ α} {f : α → EStateM Fault τ β} (hx : Literate x)
    (hf : ∀ v, Literate (f v)) : Literate (x >>= f) :=
  fun s => (hx s).bind fun v t _ => hf v t

theorem optional {c : Prop} [Decidable c] {x : EStateM Fault τ α} {y : EStateM Fault τ β}
    (hx : Literate x) (hy : Literate y) : Literate (if c then x >>= fun _ => y else y) := by
  split
  · exact bind hx fun _ => hy
  · exact hy

theorem self : Literate (TenantM.self : TenantM Fault τ τ) :=
  fun _ => trivial

theorem modifySelf (f : τ → τ) : Literate (TenantM.modifySelf f : TenantM Fault τ Unit) :=
  fun _ => trivial

theorem onArena (f : Arena → Except MemoryError (α × Arena)) :
    Literate (TenantM.onArena .memory f : TenantM Fault τ α) := by
  rintro ⟨t, a⟩
  exact TenantM.ends_onArena (fun _ _ _ => trivial) fun _ _ h => h

theorem ask (f : Arena → Except MemoryError α) :
    Literate (TenantM.ask .memory f : TenantM Fault τ α) := by
  intro s
  rw [TenantM.ask]
  cases f s.2 with
  | ok v => trivial
  | error e => exact fun h => h

theorem attempt (x : TenantM Fault τ Unit) : Literate (TenantM.attempt x) := by
  intro s
  rw [TenantM.attempt]
  cases x s <;> trivial

end Literate

namespace Stack

theorem literate_within (region offset : Nat) : Literate (within region offset) := by
  rw [within]
  cases Address.add? region offset with
  | some addr => exact .pure addr
  | none => exact .throw fun h => h

theorem literate_resize (size : Nat) : Literate (resize size) := by
  refine .bind .self fun s => .optional (.onArena _) ?_
  exact .bind (.onArena _) fun moved => .bind (.onArena _) fun _ => .modifySelf _

theorem literate_push (v : Int64) : Literate (push v) := by
  refine .bind .self fun s => .optional (literate_resize _) (.bind .self fun s => ?_)
  refine .bind (literate_within _ _) fun addr => .bind (.onArena _) fun _ => ?_
  refine .bind (.modifySelf _) fun _ => .bind .self fun s => ?_
  split
  · exact .attempt _
  · exact .pure ()

theorem literate_pop : Literate pop := by
  refine .bind .self fun s => .optional (.throw fun h => h) ?_
  refine .bind (.modifySelf _) fun _ => .bind .self fun s => ?_
  refine .bind (literate_within _ _) fun addr => .bind (.ask _) fun v => ?_
  exact .optional (.attempt _) (.pure v)

end Stack

/-! ### Programs -/

/-- The action leaves the cursor where it is, and if it says that the program cannot be read on then
this is accounted for. -/
def Steady (E : Fault → Machine σ → Prop) (x : Exec σ α) : Prop :=
  ∀ m, Ends (x m) (fun _ n => n.cursor = m.cursor) fun e n => e.Misread → E e n

/-- The faults that the host of a runner answers with are accounted for. -/
structure Runner.Blames (r : Runner σ) (E : Fault → Machine σ → Prop) : Prop where
  spawn : ∀ priority name m,
    Ends (Exec.onHost (r.host.spawn r.origin priority name) m) (fun _ _ => True) E
  bind : ∀ target entry m,
    Ends (Exec.onHost (r.host.bind target (r.image.enteredAt entry)) m) (fun _ _ => True) E
  dispatch : ∀ target m, Ends (Exec.onHost (r.host.dispatch target) m) (fun _ _ => True) E
  print : ∀ text m, Ends (Exec.onHost (r.host.print r.origin text) m) (fun _ _ => True) E

namespace Steady

variable {E : Fault → Machine σ → Prop}

theorem pure (v : α) : Steady E (pure v : Exec σ α) :=
  fun _ => rfl

theorem throw {e : Fault} (h : ¬ e.Misread) : Steady E (throw e : Exec σ α) :=
  fun _ hmisread => absurd hmisread h

theorem bind {x : Exec σ α} {f : α → Exec σ β} (hx : Steady E x) (hf : ∀ v, Steady E (f v)) :
    Steady E (x >>= f) :=
  fun m => (hx m).bind fun v n hn =>
    (hf v n).weaken (fun _ _ hend => hend.trans hn) fun _ _ he => he

theorem ite {c : Prop} [Decidable c] {x y : Exec σ α} (hx : Steady E x) (hy : Steady E y) :
    Steady E (if c then x else y) := by
  split
  · exact hx
  · exact hy

theorem get_bind {f : Machine σ → Exec σ α} (h : ∀ m, Steady E (f m)) : Steady E (get >>= f) :=
  fun m => h m m

theorem onStack {x : StackM α} (hx : Literate x) : Steady E (Exec.onStack x) := by
  intro m
  have hend := hx (m.stack, m.arena)
  rw [Exec.onStack]
  cases hres : x (m.stack, m.arena) with
  | ok v t => rfl
  | error e t =>
    rw [hres] at hend
    exact fun hmisread => absurd hmisread hend

theorem onHeap (x : HeapM α) : Steady E (Exec.onHeap x) := by
  intro m
  rw [Exec.onHeap]
  cases x (m.heap, m.arena) with
  | ok v t => rfl
  | error e t => exact False.elim

theorem onHost {x : HostM σ α} (hx : ∀ m, Ends (Exec.onHost x m) (fun _ _ => True) E) :
    Steady E (Exec.onHost x) := by
  intro m
  have hend := hx m
  have hcursor : (reached (Exec.onHost x m)).cursor = m.cursor := by
    rw [Exec.reached_onHost]
  cases hres : Exec.onHost x m with
  | ok v n =>
    rw [hres] at hcursor
    exact hcursor
  | error e n =>
    rw [hres] at hend
    exact fun _ => hend

theorem ofMemory (x : Except MemoryError α) : Steady E (Exec.ofMemory x) := by
  cases x with
  | ok v => exact pure v
  | error e => exact throw fun h => h

theorem push (v : Int64) : Steady E (Exec.push v) :=
  onStack (Stack.literate_push v)

theorem pop : Steady E Exec.pop :=
  onStack Stack.literate_pop

theorem popProcess : Steady E Exec.popProcess := by
  refine bind pop fun v => ?_
  cases ProcessId.ofSlot? v with
  | some id => exact pure id
  | none => exact throw fun h => h

theorem binary (f : Int64 → Int64 → Int64) : Steady E (Exec.binary f) :=
  bind pop fun _ => bind pop fun _ => push _

theorem divide (offset : Nat) (f : Int64 → Int64 → Int64) : Steady E (Exec.divide offset f) :=
  bind pop fun _ => bind pop fun _ => ite (bind (throw fun h => h) fun _ => push _) (push _)

theorem popText : Steady E Runner.popText := by
  refine bind pop fun v => ?_
  cases Address.ofSlot? v with
  | none => exact throw fun h => h
  | some addr => exact ite (pure _) (get_bind fun m => bind (ofMemory _) fun bytes => pure _)

variable {r : Runner σ}

theorem checkCall : Steady E r.checkCall :=
  bind pop fun _ => ite (throw fun h => h) (pure _)

/-- What an opcode does that takes no operands. -/
theorem perform (hr : r.Blames E) {o : Opcode} (ho : o.operandBytes = 0) (offset : Nat) :
    Steady E (r.perform o offset) := by
  cases o with
  | push | pushLong | spawn | bindAt | jump | pushText => contradiction
  | dispatch =>
    exact bind popProcess fun target => bind (onHost (hr.dispatch target)) fun _ => pure _
  | add | sub | mul | logShift | bitAnd | bitOr | bitXor | shiftLeft | shiftRight =>
    exact bind (binary _) fun _ => pure _
  | equals | logAnd | logOr | greater | less | greaterEq | lessEq =>
    exact bind (binary _) fun _ => pure _
  | div | mod => exact bind (divide offset _) fun _ => pure _
  | bitNot => exact bind pop fun _ => bind (push _) fun _ => pure _
  | storeLocal | loadLocal | deref | arrayRef => exact bind (pure _) fun _ => pure _
  | branch | drop => exact bind pop fun _ => pure _
  | print => exact bind popText fun text => bind (onHost (hr.print text)) fun _ => pure _
  | call => exact bind checkCall fun _ => pure _
  | halt => exact bind pop fun _ => pure _

end Steady

end BytecodeKernel
