import BytecodeKernel.Address
/-!
Process identities: natural numbers from a counter that only goes up, so none is used twice.
-/

namespace BytecodeKernel.ProcessId

/-- Reads a stack slot as an identity. Negative and wider values name no process. -/
def ofSlot? (v : Int64) : Option Nat :=
  Address.ofSlot? v

/-- The stack slot that holds an identity. -/
def toSlot (id : Nat) : Int64 :=
  Int64.ofNat id

/-- The identity as it appears in messages. -/
def text (id : Nat) : String :=
  toString id

/-- The identity with the mark that tells it from a plain number. -/
def taggedText (id : Nat) : String :=
  "pid#" ++ toString id

end BytecodeKernel.ProcessId
