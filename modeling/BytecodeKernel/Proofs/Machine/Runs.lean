import BytecodeKernel.Machine.Interpreter
import BytecodeKernel.Proofs.Machine.Stacks
/-!
Runs of the interpreter. A program reaches beyond its cursor only through a handful of steps: pushes
and pops of its stack, returns from frames, blocks taken and filled in its heap, and requests to its
host. What each of these keeps, every run keeps, whatever bytes the image holds and wherever a fault
ends it.
-/

namespace BytecodeKernel.Exec

variable {σ α : Type}

theorem reached_onStack (x : StackM α) (m : Machine σ) :
    reached (onStack x m) = { m with
      stack := (reached (x (m.stack, m.arena))).1
      arena := (reached (x (m.stack, m.arena))).2 } := by
  rw [onStack]
  cases x (m.stack, m.arena) <;> rfl

theorem reached_onHeap (x : HeapM α) (m : Machine σ) :
    reached (onHeap x m) = { m with
      heap := (reached (x (m.heap, m.arena))).1
      arena := (reached (x (m.heap, m.arena))).2 } := by
  rw [onHeap]
  cases x (m.heap, m.arena) <;> rfl

theorem reached_onHost (x : HostM σ α) (m : Machine σ) :
    reached (onHost x m) = { m with
      host := (reached (x (m.host, m.arena))).1
      arena := (reached (x (m.host, m.arena))).2 } := by
  rw [onHost]
  cases x (m.host, m.arena) <;> rfl

end BytecodeKernel.Exec

namespace BytecodeKernel.Runner

variable {σ α : Type}

/-- The steps a program is made of all keep a predicate of the machine. -/
structure Keeps (r : Runner σ) (P : Machine σ → Prop) : Prop where
  cursor : ∀ m cursor, P m → P { m with cursor }
  push : ∀ v, Preserves P (Exec.push v)
  pop : Preserves P Exec.pop
  popFrame : Preserves P (Exec.onStack Stack.popFrame)
  malloc : ∀ size, Preserves P (Exec.onHeap (Heap.malloc size))
  copyIn : ∀ dst src length, Preserves P (Exec.onHeap do
    let h ← TenantM.self
    TenantM.updateArena id fun a => h.copyIn a dst src length)
  spawn : ∀ priority name, Preserves P (Exec.onHost (r.host.spawn r.origin priority name))
  bind : ∀ target entry, Preserves P (Exec.onHost (r.host.bind target (r.image.enteredAt entry)))
  dispatch : ∀ target, Preserves P (Exec.onHost (r.host.dispatch target))
  print : ∀ text, Preserves P (Exec.onHost (r.host.print r.origin text))

variable {r : Runner σ} {P : Machine σ → Prop}

theorem keeps_true (r : Runner σ) : r.Keeps fun _ => True := by
  refine ⟨fun _ _ _ => trivial, ?_, ?_, ?_, ?_, ?_, ?_, ?_, ?_, ?_⟩ <;> intros <;>
    exact .of_reached fun _ _ => trivial

theorem preserves_cursor : Preserves P Exec.cursor :=
  fun _ h => h

theorem preserves_ofMemory (x : Except MemoryError α) : Preserves P (Exec.ofMemory x) := by
  simp only [Exec.ofMemory]
  split
  · exact .pure _
  · exact .throw _

namespace Keeps

theorem jumpTo (h : r.Keeps P) (cursor : Nat) : Preserves P (Exec.jumpTo cursor) :=
  fun m hm => h.cursor m cursor hm

theorem skip (h : r.Keeps P) (count : Nat) : Preserves P (Exec.skip count) :=
  fun m hm => h.cursor m _ hm

theorem popProcess (h : r.Keeps P) : Preserves P Exec.popProcess := by
  refine .bind h.pop fun v => ?_
  split
  · exact .pure _
  · exact .throw _

theorem binary (h : r.Keeps P) (f : Int64 → Int64 → Int64) : Preserves P (Exec.binary f) :=
  .bind h.pop fun _ => .bind h.pop fun _ => h.push _

theorem divide (h : r.Keeps P) (offset : Nat) (f : Int64 → Int64 → Int64) :
    Preserves P (Exec.divide offset f) := by
  refine .bind h.pop fun lhs => .bind h.pop fun rhs => ?_
  exact .optional (.throw _) (h.push _)

theorem locate (r : Runner σ) (o : Opcode) (offset length : Nat) :
    Preserves P (r.locate o offset length) := by
  rw [Runner.locate]
  split
  · exact .throw _
  · split
    · exact .pure _
    · exact .throw _

theorem operand (h : r.Keeps P) (o : Opcode) (width : Nat) : Preserves P (r.operand o width) := by
  refine .bind preserves_cursor fun offset => .bind (locate r o offset width) fun addr => ?_
  refine .bind .get fun m => .bind (preserves_ofMemory _) fun bytes => ?_
  exact .bind (h.skip width) fun _ => .pure _

theorem signedOperand (h : r.Keeps P) (o : Opcode) (width : Nat) :
    Preserves P (r.signedOperand o width) :=
  .bind (h.operand o width) fun _ => .pure _

theorem lengthOperand (h : r.Keeps P) (o : Opcode) : Preserves P (r.lengthOperand o) :=
  .bind (h.operand o 2) fun _ => .pure _

theorem literal (h : r.Keeps P) (o : Opcode) (length : Nat) : Preserves P (r.literal o length) := by
  refine .ite (.pure _) ?_
  refine .bind preserves_cursor fun offset => .bind (locate r o offset length) fun addr => ?_
  refine .bind .get fun m => .bind (preserves_ofMemory _) fun bytes => ?_
  exact .bind (h.skip length) fun _ => .pure _

theorem heapLiteral (h : r.Keeps P) (o : Opcode) (length : Nat) :
    Preserves P (r.heapLiteral o length) := by
  refine .ite (.pure _) ?_
  refine .bind preserves_cursor fun offset => .bind (locate r o offset length) fun src => ?_
  refine .bind (h.malloc length) fun addr => .bind (h.copyIn addr src length) fun _ => ?_
  exact .bind (h.skip length) fun _ => .pure _

theorem offsetOperand (h : r.Keeps P) (o : Opcode) (last : Int) :
    Preserves P (r.offsetOperand o last) :=
  .bind (h.signedOperand o 4) fun _ => .ite (.pure _) (.throw _)

theorem popText (h : r.Keeps P) : Preserves P (Runner.popText : Exec σ String) := by
  refine .bind h.pop fun v => ?_
  split
  · refine .ite (.pure _) ?_
    exact .bind .get fun m => .bind (preserves_ofMemory _) fun bytes => .pure _
  · exact .throw _

theorem checkCall (h : r.Keeps P) : Preserves P r.checkCall := by
  refine .bind h.pop fun v => ?_
  exact .ite (.throw _) (.pure _)

/-- One instruction, whichever it is. -/
theorem perform (h : r.Keeps P) (o : Opcode) (offset : Nat) : Preserves P (r.perform o offset) := by
  cases o with
  | push => exact .bind (h.signedOperand _ 4) fun _ => .bind (h.push _) fun _ => .pure _
  | pushLong => exact .bind (h.signedOperand _ 8) fun _ => .bind (h.push _) fun _ => .pure _
  | spawn =>
    refine .bind (h.signedOperand _ 4) fun priority => .bind (h.lengthOperand _) fun length => ?_
    refine .bind (h.literal _ length) fun name => .bind (h.spawn _ name) fun child => ?_
    exact .bind (h.push _) fun _ => .pure _
  | bindAt =>
    refine .bind h.popProcess fun target => .bind (h.offsetOperand _ _) fun entry => ?_
    exact .bind (h.bind target entry) fun _ => .pure _
  | dispatch => exact .bind h.popProcess fun target => .bind (h.dispatch target) fun _ => .pure _
  | add | sub | mul | logShift | bitAnd | bitOr | bitXor | shiftLeft | shiftRight =>
    exact .bind (h.binary _) fun _ => .pure _
  | equals | logAnd | logOr | greater | less | greaterEq | lessEq =>
    exact .bind (h.binary _) fun _ => .pure _
  | div | mod => exact .bind (h.divide offset _) fun _ => .pure _
  | bitNot => exact .bind h.pop fun _ => .bind (h.push _) fun _ => .pure _
  | storeLocal | loadLocal | deref | arrayRef => exact .bind (.pure _) fun _ => .pure _
  | jump => exact .bind (h.offsetOperand _ _) fun _ => .bind (h.jumpTo _) fun _ => .pure _
  | branch | drop => exact .bind h.pop fun _ => .pure _
  | pushText =>
    refine .bind (h.lengthOperand _) fun length => .bind (h.heapLiteral _ length) fun addr => ?_
    exact .bind (h.push _) fun _ => .pure _
  | print => exact .bind h.popText fun text => .bind (h.print text) fun _ => .pure _
  | call => exact .bind h.checkCall fun _ => .pure _
  | halt => exact .bind h.pop fun _ => .pure _

theorem step (h : r.Keeps P) : Preserves P r.step := by
  refine .bind preserves_cursor fun offset => ?_
  split
  · refine .bind .get fun m => .bind (preserves_ofMemory _) fun byte => ?_
    split
    · exact .bind (h.skip 1) fun _ => h.perform _ offset
    · exact .throw _
  · exact .throw _

theorem unwind (h : r.Keeps P) (depth : Nat) : Preserves P (r.unwind depth) := by
  induction depth with
  | zero => exact .pure _
  | succ depth ih =>
    refine .bind preserves_cursor fun offset => .ite ?_ (.pure _)
    exact .bind h.popFrame fun cursor => .bind (h.jumpTo cursor) fun _ => ih

/-- A whole run. -/
theorem run (h : r.Keeps P) (budget : Nat) : Preserves P (r.run budget) := by
  induction budget with
  | zero => exact .bind .get fun m => .ite (.pure _) (.pure _)
  | succ budget ih =>
    refine .bind .get fun m => .bind (h.unwind _) fun _ => .bind preserves_cursor fun offset => ?_
    refine .ite (.pure _) (.bind h.step fun outcome => ?_)
    split
    · exact .pure _
    · exact ih

end Keeps

end BytecodeKernel.Runner
