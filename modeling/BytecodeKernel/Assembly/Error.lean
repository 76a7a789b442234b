import BytecodeKernel.Program.Listing
/-!
Why assembly text has no image. Faults of a line carry its number, counted from one.
-/

namespace BytecodeKernel

inductive AssemblyError where
  | unknownMnemonic (line : Nat) (word : String)
  | missingOperand (line : Nat) (opcode : Opcode)
  | invalidOperand (line : Nat) (text : String)
  /-- Every line reads, and the program they spell is at fault. -/
  | listing (e : ListingError)
deriving DecidableEq

namespace AssemblyError

def message : AssemblyError → String
  | unknownMnemonic line word => s!"line {line}: unknown mnemonic `{word}`"
  | missingOperand line opcode => s!"line {line}: {opcode.mnemonic} expects an operand"
  | invalidOperand line text => s!"line {line}: invalid operand `{text}`"
  | listing e => e.message

end AssemblyError

end BytecodeKernel
