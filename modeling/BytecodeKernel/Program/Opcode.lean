/-!
The instruction set. An instruction is one opcode byte, followed by operands of a fixed width and,
for `spawn` and `pushText`, by as many bytes as the last operand says. Binary operators pop twice,
and the value popped first is the left operand.
-/

namespace BytecodeKernel

/-- The operation an instruction performs. -/
inductive Opcode where
  /-- Pushes a sign-extended 32-bit operand. -/
  | push
  /-- Pushes a 64-bit operand. -/
  | pushLong
  /-- Creates a child with the priority and name that follow, and pushes its identity. -/
  | spawn
  /-- Pops an identity and binds that process to this program, entered at the operand. -/
  | bindAt
  /-- Pops an identity and hands that process to a worker. -/
  | dispatch
  | add
  | sub
  | mul
  | div
  | mod
  | equals
  /-- One when both operands are positive. -/
  | logAnd
  /-- One when either operand is positive. -/
  | logOr
  /-- Right shift that brings in zeros. -/
  | logShift
  | bitAnd
  | bitOr
  | bitXor
  | bitNot
  | shiftLeft
  /-- Right shift that brings in the sign. -/
  | shiftRight
  /-- Reserved; does nothing. -/
  | storeLocal
  /-- Reserved; does nothing. -/
  | loadLocal
  /-- Continues at the operand, an offset from the start of the image. -/
  | jump
  /-- Pops a condition and falls through either way. -/
  | branch
  | greater
  | less
  | greaterEq
  | lessEq
  /-- Copies the bytes that follow into a fresh heap block and pushes its address. -/
  | pushText
  /-- Pops a heap address and prints the block as text. -/
  | print
  /-- Discards the top slot. -/
  | drop
  /-- Reserved; does nothing. -/
  | deref
  /-- Reserved; does nothing. -/
  | arrayRef
  /-- Pops a tagged word and checks its address; nothing is called. -/
  | call
  /-- Pops a flag: nonzero halts this process, zero its whole subtree. -/
  | halt
deriving DecidableEq

namespace Opcode

/-- The byte that stands for an opcode in an image. -/
def code : Opcode → UInt8
  | push => 0
  | pushLong => 1
  | spawn => 2
  | bindAt => 3
  | dispatch => 4
  | add => 5
  | sub => 6
  | mul => 7
  | div => 8
  | mod => 9
  | equals => 10
  | logAnd => 11
  | logOr => 12
  | logShift => 13
  | bitAnd => 14
  | bitOr => 15
  | bitXor => 16
  | bitNot => 17
  | shiftLeft => 18
  | shiftRight => 19
  | storeLocal => 20
  | loadLocal => 21
  | jump => 22
  | branch => 23
  | greater => 24
  | less => 25
  | greaterEq => 26
  | lessEq => 27
  | pushText => 28
  | print => 29
  | drop => 30
  | deref => 31
  | arrayRef => 32
  | call => 33
  | halt => 127

/-- All opcodes, in the order of their codes. -/
def all : List Opcode :=
  [push, pushLong, spawn, bindAt, dispatch, add, sub, mul, div, mod, equals, logAnd, logOr,
   logShift, bitAnd, bitOr, bitXor, bitNot, shiftLeft, shiftRight, storeLocal, loadLocal, jump,
   branch, greater, less, greaterEq, lessEq, pushText, print, drop, deref, arrayRef, call, halt]

/-- The opcode a byte stands for, if any. -/
def ofByte? (b : UInt8) : Option Opcode :=
  all.find? fun o => o.code == b

/-- The number of operand bytes of fixed width that follow the opcode. -/
def operandBytes : Opcode → Nat
  | push | bindAt | jump => 4
  | pushLong => 8
  | spawn => 6
  | pushText => 2
  | _ => 0

/-- The word that names the opcode in assembly text. -/
def mnemonic : Opcode → String
  | push => "PUSH"
  | pushLong => "LPSH"
  | spawn => "PROC"
  | bindAt => "PROCFUN"
  | dispatch => "PRCE"
  | add => "ADD"
  | sub => "SUB"
  | mul => "MUL"
  | div => "DIV"
  | mod => "MOD"
  | equals => "EQUALS"
  | logAnd => "LOGAND"
  | logOr => "LOGOR"
  | logShift => "LOGSHFT"
  | bitAnd => "AND"
  | bitOr => "OR"
  | bitXor => "XOR"
  | bitNot => "NOT"
  | shiftLeft => "LSHIFT"
  | shiftRight => "RSHIFT"
  | storeLocal => "ISTORE"
  | loadLocal => "ILOAD"
  | jump => "JUMP"
  | branch => "IF"
  | greater => "CMPG"
  | less => "CMPL"
  | greaterEq => "CMPGE"
  | lessEq => "CMPLE"
  | pushText => "APUSH"
  | print => "PRINT"
  | drop => "POP"
  | deref => "DREF"
  | arrayRef => "AREF"
  | call => "CALL"
  | halt => "HALT"

/-- The word that names the opcode in messages. -/
def label : Opcode → String
  | push => "Push"
  | pushLong => "Lpsh"
  | spawn => "Proc"
  | bindAt => "ProcFun"
  | dispatch => "Prce"
  | add => "Add"
  | sub => "Sub"
  | mul => "Mul"
  | div => "Div"
  | mod => "Mod"
  | equals => "Equals"
  | logAnd => "LogAnd"
  | logOr => "LogOr"
  | logShift => "LogShift"
  | bitAnd => "And"
  | bitOr => "Or"
  | bitXor => "Xor"
  | bitNot => "Not"
  | shiftLeft => "LShift"
  | shiftRight => "RShift"
  | storeLocal => "IStore"
  | loadLocal => "ILoad"
  | jump => "Jump"
  | branch => "If"
  | greater => "CmpG"
  | less => "CmpL"
  | greaterEq => "CmpGe"
  | lessEq => "CmpLe"
  | pushText => "APush"
  | print => "Print"
  | drop => "Pop"
  | deref => "Dref"
  | arrayRef => "Aref"
  | call => "Call"
  | halt => "Halt"

/-- The opcode with a given mnemonic, in letters of either case. -/
def ofMnemonic? (word : List Char) : Option Opcode :=
  all.find? fun o => o.mnemonic.toList == word.map Char.toUpper

@[simp] theorem ofByte?_code (o : Opcode) : ofByte? o.code = some o := by
  cases o <;> decide

theorem code_eq_of_ofByte? {b : UInt8} {o : Opcode} (h : ofByte? b = some o) : o.code = b := by
  simpa using List.find?_some h

theorem ofMnemonic?_mnemonic (o : Opcode) : ofMnemonic? o.mnemonic.toList = some o := by
  cases o <;> decide

end Opcode

end BytecodeKernel
