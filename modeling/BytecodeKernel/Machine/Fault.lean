import BytecodeKernel.Memory.Error
import BytecodeKernel.ProcessId
import BytecodeKernel.Program.Opcode
/-!
Faults: what can go wrong while a program runs. Any of them ends the process and its subtree.
-/

namespace BytecodeKernel

inductive Fault where
  | memory (e : MemoryError)
  | stackUnderflow
  | frameOverflow (max : Nat)
  | frameUnderflow
  | invalidLocal (index : Nat)
  | unknownOpcode (byte : UInt8) (offset : Nat)
  /-- The image ends inside the operands of an instruction. -/
  | unexpectedEnd (opcode : Opcode) (offset : Nat)
  | divisionByZero (offset : Nat)
  | invalidJump (target : Int) (length : Nat)
  | invalidCall (tag address length : Nat)
  | invalidProcessId (v : Int64)
  | unknownProcess (id : Nat)
  | alreadyBound (id : Nat)
  /-- The host refused a request, with its reason. -/
  | host (reason : String)
deriving DecidableEq

namespace Fault

def message : Fault → String
  | memory e => e.message
  | stackUnderflow => "stack underflow"
  | frameOverflow max => s!"call frame overflow (max {max})"
  | frameUnderflow => "call frame underflow"
  | invalidLocal index => s!"frame local {index} out of range"
  | unknownOpcode byte offset =>
    s!"unknown opcode 0x{Hex.padded 2 byte.toNat} at offset {offset}"
  | unexpectedEnd opcode offset => s!"truncated operand for {opcode.label} at offset {offset}"
  | divisionByZero offset => s!"division by zero at offset {offset}"
  | invalidJump target length => s!"jump target {target} outside program of {length} bytes"
  | invalidCall tag address length =>
    s!"call to 0x{Hex.padded 6 address} (tag {tag}) outside program of {length} bytes"
  | invalidProcessId v => s!"{v.toInt} is not a valid process id"
  | unknownProcess id => s!"unknown process {id}"
  | alreadyBound id => s!"process {id} already has a program bound"
  | host reason => s!"host rejected request: {reason}"

end Fault

end BytecodeKernel
