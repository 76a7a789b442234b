import BytecodeKernel.Bytes.TaggedWord
import BytecodeKernel.Machine.Host
import BytecodeKernel.Machine.Stack
import BytecodeKernel.Memory.Heap
import BytecodeKernel.Text.Utf8
/-!
The interpreter. `run` carries out at most a given number of instructions of one process on its heap
and stack. Requests that reach beyond the process go to its host. The machine a run leaves behind is
the one it reached, also when it ends in a fault.
-/

namespace BytecodeKernel

/-- What a running program works on. -/
structure Machine (σ : Type) where
  heap : Heap
  stack : Stack
  /-- The offset of the next instruction. -/
  cursor : Nat
  arena : Arena
  /-- The state of the host. -/
  host : σ

/-- Who runs, what, and under which host. -/
structure Runner (σ : Type) where
  origin : Nat
  image : Image
  host : Host σ

/-- How a run ended that met no fault. -/
inductive Outcome where
  /-- The budget ran out and there is more to do. -/
  | yielded
  /-- The end of the image was reached with no frame to return to. -/
  | finished
  | halted (recursive : Bool)
deriving DecidableEq

abbrev Exec (σ : Type) := EStateM Fault (Machine σ)

namespace Exec

variable {σ α : Type}

def onStack (x : StackM α) : Exec σ α := fun m =>
  match x (m.stack, m.arena) with
  | .ok v (stack, arena) => .ok v { m with stack, arena }
  | .error e (stack, arena) => .error e { m with stack, arena }

def onHeap (x : HeapM α) : Exec σ α := fun m =>
  match x (m.heap, m.arena) with
  | .ok v (heap, arena) => .ok v { m with heap, arena }
  | .error e (heap, arena) => .error (.memory e) { m with heap, arena }

def onHost (x : HostM σ α) : Exec σ α := fun m =>
  match x (m.host, m.arena) with
  | .ok v (host, arena) => .ok v { m with host, arena }
  | .error e (host, arena) => .error e { m with host, arena }

/-- Takes an answer about memory as it is, a refusal as a fault. -/
def ofMemory (x : Except MemoryError α) : Exec σ α :=
  match x with
  | .ok v => pure v
  | .error e => throw (.memory e)

def cursor : Exec σ Nat := fun m => .ok m.cursor m

def jumpTo (cursor : Nat) : Exec σ Unit := fun m => .ok () { m with cursor }

def skip (count : Nat) : Exec σ Unit := fun m => .ok () { m with cursor := m.cursor + count }

def push (v : Int64) : Exec σ Unit := onStack (Stack.push v)

def pop : Exec σ Int64 := onStack Stack.pop

end Exec

/-- Pops a process identity. -/
def Exec.popProcess {σ : Type} : Exec σ Nat := do
  let v ← pop
  match ProcessId.ofSlot? v with
  | some id => return id
  | none => throw (.invalidProcessId v)

/-- Pops two operands, the left one first, and pushes the result. -/
def Exec.binary {σ : Type} (f : Int64 → Int64 → Int64) : Exec σ Unit := do
  let lhs ← pop
  let rhs ← pop
  push (f lhs rhs)

/-- Pops two operands and pushes one or zero. -/
def Exec.compare {σ : Type} (p : Int64 → Int64 → Bool) : Exec σ Unit :=
  binary fun lhs rhs => if p lhs rhs then 1 else 0

/-- Like `binary`, for operations that a right operand of zero does not admit. -/
def Exec.divide {σ : Type} (offset : Nat) (f : Int64 → Int64 → Int64) : Exec σ Unit := do
  let lhs ← pop
  let rhs ← pop
  if rhs = 0 then throw (.divisionByZero offset)
  push (f lhs rhs)

namespace Runner

variable {σ : Type} (r : Runner σ)

/-- The arena address of `length` bytes of operand at an offset of the image. -/
def locate (o : Opcode) (offset length : Nat) : Exec σ Nat :=
  if r.image.length < offset + length then throw (.unexpectedEnd o offset)
  else match r.image.addressOf? offset with
    | some addr => pure addr
    | none => throw (.unexpectedEnd o offset)

/-- The bytes of an operand of fixed width at the cursor, which moves behind it. -/
def operand (o : Opcode) (width : Nat) : Exec σ (List UInt8) := do
  let addr ← r.locate o (← Exec.cursor) width
  let bytes ← Exec.ofMemory ((← get).arena.read addr width)
  Exec.skip width
  return bytes

def signedOperand (o : Opcode) (width : Nat) : Exec σ Int := do
  return BigEndian.decodeSigned (← r.operand o width)

def lengthOperand (o : Opcode) : Exec σ Nat := do
  return BigEndian.decode (← r.operand o 2)

/-- The bytes at the cursor that the operands before announced. The cursor moves behind them. -/
def literal (o : Opcode) (length : Nat) : Exec σ (List UInt8) := do
  if length = 0 then return []
  let addr ← r.locate o (← Exec.cursor) length
  let bytes ← Exec.ofMemory ((← get).arena.read addr length)
  Exec.skip length
  return bytes

/-- Copies the bytes at the cursor to a fresh heap block and gives its address, which is null when
there are none. The cursor moves behind them once they are copied. -/
def heapLiteral (o : Opcode) (length : Nat) : Exec σ Nat := do
  if length = 0 then return Address.null
  let src ← r.locate o (← Exec.cursor) length
  let addr ← Exec.onHeap (Heap.malloc length)
  Exec.onHeap do
    let h ← TenantM.self
    TenantM.updateArena id fun a => h.copyIn a addr src length
  Exec.skip length
  return addr

/-- An offset operand, refused unless it is at most `last`. -/
def offsetOperand (o : Opcode) (last : Int) : Exec σ Nat := do
  let v ← r.signedOperand o 4
  if 0 ≤ v ∧ v ≤ last then return v.toNat
  throw (.invalidJump v r.image.length)

/-- The text of the heap block at a popped address. Null stands for the empty text. -/
def popText : Exec σ String := do
  let v ← Exec.pop
  let some addr := Address.ofSlot? v
    | throw (.memory (.invalidPointer (v.toUInt64.toNat % addressLimit)))
  if addr = Address.null then return ""
  let m ← get
  let bytes ← Exec.ofMemory (m.heap.readBlock m.arena addr)
  return String.ofList (Utf8.decodeLossy bytes)

/-- Pops a tagged word and checks that its address lies in the image. -/
def checkCall : Exec σ Unit := do
  let word := (← Exec.pop).toUInt64.toNat % addressLimit
  let address := TaggedWord.address word
  if r.image.length ≤ address then
    throw (.invalidCall (TaggedWord.tag word) address r.image.length)

/-- Carries out an opcode that stood at `offset`, with the cursor behind it. -/
def perform (o : Opcode) (offset : Nat) : Exec σ (Option Outcome) := do
  match o with
  | .push => Exec.push (Int64.ofInt (← r.signedOperand o 4))
  | .pushLong => Exec.push (Int64.ofInt (← r.signedOperand o 8))
  | .spawn =>
    let priority ← r.signedOperand o 4
    let length ← r.lengthOperand o
    let name ← r.literal o length
    let child ← Exec.onHost (r.host.spawn r.origin priority.toNat name)
    Exec.push (ProcessId.toSlot child)
  | .bindAt =>
    let target ← Exec.popProcess
    let entry ← r.offsetOperand o (r.image.length - 1)
    Exec.onHost (r.host.bind target (r.image.enteredAt entry))
  | .dispatch =>
    let target ← Exec.popProcess
    Exec.onHost (r.host.dispatch target)
  | .add => Exec.binary (· + ·)
  | .sub => Exec.binary (· - ·)
  | .mul => Exec.binary (· * ·)
  | .div => Exec.divide offset (· / ·)
  | .mod => Exec.divide offset (· % ·)
  | .equals => Exec.compare (· == ·)
  | .logAnd => Exec.compare fun a b => 0 < a && 0 < b
  | .logOr => Exec.compare fun a b => 0 < a || 0 < b
  | .logShift => Exec.binary fun a b => (a.toUInt64 >>> b.toUInt64).toInt64
  | .bitAnd => Exec.binary (· &&& ·)
  | .bitOr => Exec.binary (· ||| ·)
  | .bitXor => Exec.binary (· ^^^ ·)
  | .bitNot => Exec.push (~~~(← Exec.pop))
  | .shiftLeft => Exec.binary (· <<< ·)
  | .shiftRight => Exec.binary (· >>> ·)
  | .greater => Exec.compare fun a b => b < a
  | .less => Exec.compare fun a b => a < b
  | .greaterEq => Exec.compare fun a b => b ≤ a
  | .lessEq => Exec.compare fun a b => a ≤ b
  | .storeLocal | .loadLocal | .deref | .arrayRef => pure ()
  | .jump => Exec.jumpTo (← r.offsetOperand o r.image.length)
  | .branch | .drop => let _ ← Exec.pop
  | .pushText =>
    let length ← r.lengthOperand o
    let addr ← r.heapLiteral o length
    Exec.push (Address.toSlot addr)
  | .print =>
    let text ← popText
    Exec.onHost (r.host.print r.origin text)
  | .call => r.checkCall
  | .halt => return some (.halted ((← Exec.pop) == 0))
  return none

/-- Reads the opcode at the cursor and carries it out. The cursor stays on a byte that is none. -/
def step : Exec σ (Option Outcome) := do
  let offset ← Exec.cursor
  let some addr := r.image.addressOf? offset | throw (.invalidJump offset r.image.length)
  let byte ← Exec.ofMemory ((← get).arena.getByte addr)
  let some o := Opcode.ofByte? byte | throw (.unknownOpcode byte offset)
  Exec.skip 1
  r.perform o offset

/-- Returns from frames for as long as the cursor lies past the end, at most `depth` times. -/
def unwind : Nat → Exec σ Unit
  | 0 => pure ()
  | depth + 1 => do
    if r.image.length ≤ (← Exec.cursor) then
      let cursor ← Exec.onStack Stack.popFrame
      Exec.jumpTo cursor
      unwind depth

/-- Carries out at most `budget` instructions. Returning from frames costs nothing. -/
def run : Nat → Exec σ Outcome
  | 0 => do
    let m ← get
    if r.image.length ≤ m.cursor ∧ m.stack.depth = 0 then return .finished
    return .yielded
  | budget + 1 => do
    r.unwind (← get).stack.depth
    if r.image.length ≤ (← Exec.cursor) then return .finished
    match ← r.step with
    | some outcome => return outcome
    | none => run budget

end Runner

end BytecodeKernel
