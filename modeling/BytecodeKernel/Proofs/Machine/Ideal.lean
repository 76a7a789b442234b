import BytecodeKernel.Bytes.TaggedWord
import BytecodeKernel.Proofs.Machine.Transcripts
import BytecodeKernel.Text.Utf8
import Mathlib.Data.Int.Basic
import Mathlib.Algebra.Ring.Int.Defs
import Mathlib.Algebra.Ring.Nat
/-!
The machine without memory. Its state is a cursor, a list of values and a list of cursors to return
to; the program is a list of bytes, the heap a shelf that takes texts and gives them back, and the
host an oracle. Values are computed as whole numbers and brought back to 64 bits.
-/

namespace BytecodeKernel

/-! ### Values -/

namespace Ideal

/-- A number modulo two to the 64th, in two's complement. -/
def wrap (n : Int) : Int64 :=
  Int64.ofInt n

/-- One or zero. -/
def truth (p : Prop) [Decidable p] : Int64 :=
  if p then 1 else 0

/-- How far a shift moves. -/
def places (b : Int64) : Nat :=
  (b.toInt % 64).toNat

def add (a b : Int64) : Int64 := wrap (a.toInt + b.toInt)

def sub (a b : Int64) : Int64 := wrap (a.toInt - b.toInt)

def mul (a b : Int64) : Int64 := wrap (a.toInt * b.toInt)

/-- The quotient, rounded towards zero. -/
def div (a b : Int64) : Int64 := wrap (a.toInt.tdiv b.toInt)

/-- The remainder, with the sign of the dividend. -/
def mod (a b : Int64) : Int64 := wrap (a.toInt.tmod b.toInt)

def shiftLeft (a b : Int64) : Int64 := wrap (a.toInt * 2 ^ places b)

/-- The sign comes in. -/
def shiftRight (a b : Int64) : Int64 := wrap (a.toInt / 2 ^ places b)

/-- Zeros come in. -/
def logShift (a b : Int64) : Int64 := wrap (a.toInt % 2 ^ 64 / 2 ^ places b)

theorem wrap_eq_iff {n : Int} {a : Int64} : wrap n = a ↔ n.bmod (2 ^ 64) = a.toInt :=
  Int64.ofInt_eq_iff_bmod_eq_toInt n a

theorem add_eq (a b : Int64) : a + b = add a b := by
  rw [add, wrap, Int64.ofInt_add, Int64.ofInt_toInt, Int64.ofInt_toInt]

theorem sub_eq (a b : Int64) : a - b = sub a b := by
  rw [sub, wrap, Int64.ofInt_sub, Int64.ofInt_toInt, Int64.ofInt_toInt]

theorem mul_eq (a b : Int64) : a * b = mul a b := by
  rw [mul, wrap, Int64.ofInt_mul, Int64.ofInt_toInt, Int64.ofInt_toInt]

/-- The least number divided by minus one is itself. -/
theorem div_eq (a b : Int64) : a / b = div a b :=
  (wrap_eq_iff.2 (Int64.toInt_div a b).symm).symm

theorem mod_eq (a b : Int64) : a % b = mod a b := by
  rw [mod, wrap, ← Int64.toInt_mod, Int64.ofInt_toInt]

/-- The count is taken modulo 64, whatever its sign. -/
theorem toInt_smod_places (b : Int64) : (b.toBitVec.smod 64).toInt = places b := by
  rw [BitVec.toInt_smod, places, Int.toNat_of_nonneg (Int.emod_nonneg _ (by decide))]
  exact Int.fmod_eq_emod_of_nonneg _ (by decide)

theorem places_lt (b : Int64) : places b < 64 := by
  have hlt : b.toInt % 64 < 64 := Int.emod_lt_of_pos _ (by decide)
  have hnonneg : 0 ≤ b.toInt % 64 := Int.emod_nonneg _ (by decide)
  rw [places]
  omega

theorem toNat_smod_places (b : Int64) : (b.toBitVec.smod 64).toNat = places b := by
  have hint := toInt_smod_places b
  have hlt := places_lt b
  rw [BitVec.toInt_eq_toNat_bmod] at hint
  have hsmall := (b.toBitVec.smod 64).isLt
  rw [Int.bmod_def] at hint
  split at hint <;> omega

theorem shiftLeft_eq (a b : Int64) : a <<< b = shiftLeft a b := by
  refine (wrap_eq_iff.2 ?_).symm
  rw [← Int64.toInt_toBitVec (a <<< b), Int64.toBitVec_shiftLeft, BitVec.shiftLeft_eq',
    toNat_smod_places, BitVec.toInt_shiftLeft, Nat.shiftLeft_eq, ← Int64.toInt_toBitVec a,
    BitVec.toInt_eq_toNat_bmod, Int.natCast_mul, Int.bmod_mul_bmod]
  norm_cast

theorem shiftRight_eq (a b : Int64) : a >>> b = shiftRight a b := by
  refine (wrap_eq_iff.2 ?_).symm
  have hshift : a.toInt / 2 ^ places b = (a >>> b).toInt := by
    rw [← Int64.toInt_toBitVec (a >>> b), Int64.toBitVec_shiftRight, BitVec.sshiftRight',
      toNat_smod_places, BitVec.toInt_sshiftRight, Int.shiftRight_eq_div_pow,
      Int64.toInt_toBitVec]
    norm_cast
  rw [hshift]
  exact Int64.toInt_bmod _

theorem toNat_toUInt64 (a : Int64) : (a.toUInt64.toNat : Int) = a.toInt % 2 ^ 64 := by
  have hint : a.toInt = Int.bmod a.toUInt64.toNat (2 ^ 64) := BitVec.toInt_eq_toNat_bmod _
  have hlt := a.toUInt64.toNat_lt
  rw [hint, Int.bmod_def]
  split <;> omega

theorem logShift_eq (a b : Int64) : (a.toUInt64 >>> b.toUInt64).toInt64 = logShift a b := by
  have hcount : b.toUInt64.toNat % 64 = places b := by
    have hnat := toNat_toUInt64 b
    have hmod : b.toInt % 2 ^ 64 % 64 = b.toInt % 64 := Int.emod_emod_of_dvd _ (by decide)
    rw [places, ← hmod, ← hnat]
    omega
  have hshift : ((a.toUInt64 >>> b.toUInt64).toNat : Int) = a.toInt % 2 ^ 64 / 2 ^ places b := by
    rw [UInt64.toNat_shiftRight, hcount, Nat.shiftRight_eq_div_pow, ← toNat_toUInt64]
    norm_cast
  rw [logShift, ← hshift]
  refine (wrap_eq_iff.2 ?_).symm
  exact (BitVec.toInt_eq_toNat_bmod _).symm

/-- The low 32 bits. -/
theorem low_word (v : Int64) : v.toUInt64.toNat % addressLimit = (v.toInt % 2 ^ 32).toNat := by
  have hnat := toNat_toUInt64 v
  have hmod : v.toInt % 2 ^ 64 % 2 ^ 32 = v.toInt % 2 ^ 32 := Int.emod_emod_of_dvd _ (by decide)
  rw [← hmod, ← hnat, addressLimit]
  omega

end Ideal

/-! ### The machine -/

/-- The state of a machine without memory. -/
structure Ideal (H : Type) where
  /-- The offset of the next instruction. -/
  cursor : Nat
  /-- The operands, newest first. -/
  operands : List Int64
  /-- The cursors that the open frames return to, newest first. -/
  returns : List Nat
  heap : H
  /-- The requests to the host, oldest first. -/
  calls : List HostCall

/-- What a heap is for. -/
structure Shelf (H : Type) where
  /-- Puts a text away and gives its address. -/
  store : List UInt8 → H → Except MemoryError (Nat × H)
  /-- The text at an address. -/
  fetch : H → Nat → Except MemoryError (List UInt8)

abbrev IdealM (H : Type) := EStateM Fault (Ideal H)

namespace Ideal

/-- What does not change in a run. -/
structure Setting (H : Type) where
  /-- The process that runs. -/
  origin : Nat
  program : List UInt8
  shelf : Shelf H
  /-- The answer to a request, given those before it. -/
  oracle : List HostCall → HostCall → Except Fault Nat

variable {H : Type}

def at? : IdealM H Nat := fun i => .ok i.cursor i

def jumpTo (cursor : Nat) : IdealM H Unit := fun i => .ok () { i with cursor }

def skip (count : Nat) : IdealM H Unit := fun i => .ok () { i with cursor := i.cursor + count }

def push (v : Int64) : IdealM H Unit := fun i => .ok () { i with operands := v :: i.operands }

def pop : IdealM H Int64 := fun i =>
  match i.operands with
  | [] => .error .stackUnderflow i
  | v :: operands => .ok v { i with operands }

/-- Returns from frames for as long as the cursor lies past the end. -/
def leave (length cursor : Nat) : List Nat → Nat × List Nat
  | [] => (cursor, [])
  | target :: rest => if length ≤ cursor then leave length target rest else (cursor, target :: rest)

def popProcess : IdealM H Nat := do
  let v ← pop
  match ProcessId.ofSlot? v with
  | some id => return id
  | none => throw (.invalidProcessId v)

/-- The operand that is popped first is the left one. -/
def binary (f : Int64 → Int64 → Int64) : IdealM H Unit := do
  let lhs ← pop
  let rhs ← pop
  push (f lhs rhs)

def divide (offset : Nat) (f : Int64 → Int64 → Int64) : IdealM H Unit := do
  let lhs ← pop
  let rhs ← pop
  if rhs = 0 then throw (.divisionByZero offset)
  push (f lhs rhs)

namespace Setting

variable (g : Setting H)

def ask (call : HostCall) : IdealM H Nat := fun i =>
  match g.oracle i.calls call with
  | .ok reply => .ok reply { i with calls := i.calls ++ [call] }
  | .error e => .error e { i with calls := i.calls ++ [call] }

/-- Asks for something that is granted or not. -/
def request (call : HostCall) : IdealM H Unit := do
  let _ ← g.ask call

def store (bytes : List UInt8) : IdealM H Nat := fun i =>
  match g.shelf.store bytes i.heap with
  | .ok (addr, heap) => .ok addr { i with heap }
  | .error e => .error (.memory e) i

def fetch (addr : Nat) : IdealM H (List UInt8) := fun i =>
  match g.shelf.fetch i.heap addr with
  | .ok bytes => .ok bytes i
  | .error e => .error (.memory e) i

/-- The bytes of an operand at the cursor, if the program has so many. -/
def ahead (o : Opcode) (width : Nat) : IdealM H (List UInt8) := do
  let offset ← at?
  if g.program.length < offset + width then throw (.unexpectedEnd o offset)
  return (g.program.drop offset).take width

/-- The bytes of an operand, most significant first. The cursor moves behind them. -/
def operand (o : Opcode) (width : Nat) : IdealM H (List UInt8) := do
  let bytes ← g.ahead o width
  skip width
  return bytes

def signedOperand (o : Opcode) (width : Nat) : IdealM H Int := do
  return BigEndian.decodeSigned (← g.operand o width)

def lengthOperand (o : Opcode) : IdealM H Nat := do
  return BigEndian.decode (← g.operand o 2)

def literal (o : Opcode) (length : Nat) : IdealM H (List UInt8) := do
  if length = 0 then return []
  g.operand o length

/-- Puts the bytes at the cursor on the shelf. No bytes are at address zero. -/
def heapLiteral (o : Opcode) (length : Nat) : IdealM H Nat := do
  if length = 0 then return 0
  let bytes ← g.ahead o length
  let addr ← g.store bytes
  skip length
  return addr

/-- An offset of the program that is at most `last`. -/
def offsetOperand (o : Opcode) (last : Int) : IdealM H Nat := do
  let v ← g.signedOperand o 4
  if 0 ≤ v ∧ v ≤ last then return v.toNat
  throw (.invalidJump v g.program.length)

/-- The text at a popped address, which is empty at address zero. -/
def popText : IdealM H String := do
  let v ← pop
  let some addr := Address.ofSlot? v | throw (.memory (.invalidPointer (v.toInt % 2 ^ 32).toNat))
  if addr = 0 then return ""
  let bytes ← g.fetch addr
  return String.ofList (Utf8.decodeLossy bytes)

/-- The low 24 bits of a popped value must be an offset of the program. Nothing else happens. -/
def checkCall : IdealM H Unit := do
  let word := ((← pop).toInt % 2 ^ 32).toNat
  if g.program.length ≤ word % 2 ^ 24 then
    throw (.invalidCall (word / 2 ^ 24) (word % 2 ^ 24) g.program.length)

/-- What an instruction does, whose opcode stood at `offset`. -/
def perform (o : Opcode) (offset : Nat) : IdealM H (Option Outcome) := do
  match o with
  | .push => push (wrap (← g.signedOperand o 4))
  | .pushLong => push (wrap (← g.signedOperand o 8))
  | .spawn =>
    let priority ← g.signedOperand o 4
    let length ← g.lengthOperand o
    let name ← g.literal o length
    push (ProcessId.toSlot (← g.ask (.spawn g.origin priority.toNat name)))
  | .bindAt =>
    let target ← popProcess
    let entry ← g.offsetOperand o (g.program.length - 1)
    g.request (.bind target entry)
  | .dispatch =>
    let target ← popProcess
    g.request (.dispatch target)
  | .add => binary add
  | .sub => binary sub
  | .mul => binary mul
  | .div => divide offset div
  | .mod => divide offset mod
  | .equals => binary fun a b => truth (a = b)
  | .logAnd => binary fun a b => truth (0 < a.toInt ∧ 0 < b.toInt)
  | .logOr => binary fun a b => truth (0 < a.toInt ∨ 0 < b.toInt)
  | .logShift => binary logShift
  | .bitAnd => binary (· &&& ·)
  | .bitOr => binary (· ||| ·)
  | .bitXor => binary (· ^^^ ·)
  | .bitNot => push (~~~(← pop))
  | .shiftLeft => binary shiftLeft
  | .shiftRight => binary shiftRight
  | .greater => binary fun a b => truth (b.toInt < a.toInt)
  | .less => binary fun a b => truth (a.toInt < b.toInt)
  | .greaterEq => binary fun a b => truth (b.toInt ≤ a.toInt)
  | .lessEq => binary fun a b => truth (a.toInt ≤ b.toInt)
  | .storeLocal | .loadLocal | .deref | .arrayRef => pure ()
  | .jump => jumpTo (← g.offsetOperand o g.program.length)
  | .branch | .drop => let _ ← pop
  | .pushText =>
    let length ← g.lengthOperand o
    let addr ← g.heapLiteral o length
    push (wrap addr)
  | .print =>
    let text ← g.popText
    g.request (.print g.origin text)
  | .call => g.checkCall
  | .halt => return some (.halted ((← pop) = 0))
  return none

/-- The instruction at the cursor. -/
def step : IdealM H (Option Outcome) := do
  let offset ← at?
  let some byte := g.program[offset]? | throw (.invalidJump offset g.program.length)
  let some o := Opcode.ofByte? byte | throw (.unknownOpcode byte offset)
  skip 1
  g.perform o offset

/-- The instruction at the cursor, by cases of what stands there. -/
theorem step_eq (i : Ideal H) : g.step i = match g.program[i.cursor]? with
    | none => .error (.invalidJump i.cursor g.program.length) i
    | some byte => match Opcode.ofByte? byte with
      | none => .error (.unknownOpcode byte i.cursor) i
      | some o => (do skip 1; g.perform o i.cursor) i := by
  simp only [step, Bind.bind, EStateM.bind, at?]
  cases g.program[i.cursor]? with
  | none => rfl
  | some byte =>
    simp only
    cases Opcode.ofByte? byte <;> rfl

def unwind : IdealM H Unit := fun i =>
  .ok () { i with
    cursor := (leave g.program.length i.cursor i.returns).1
    returns := (leave g.program.length i.cursor i.returns).2 }

/-- At most so many instructions. At the end of the program newer frames are left first, which costs
nothing. -/
def run : Nat → IdealM H Outcome
  | 0 => do
    let i ← get
    if g.program.length ≤ i.cursor ∧ i.returns = [] then return .finished
    return .yielded
  | budget + 1 => do
    g.unwind
    if g.program.length ≤ (← at?) then return .finished
    match ← g.step with
    | some outcome => return outcome
    | none => run budget

end Setting

end Ideal

end BytecodeKernel
