import BytecodeKernel.Bytes.Hex
/-!
Addresses: natural numbers below `addressLimit` that name a byte of the arena or of a heap. Address
zero is null in every address space and never names a byte. Sums are taken in full and compared with
the limit wherever they could leave the address space.
-/

namespace BytecodeKernel

/-- The number of addresses, and the bound of every size and offset. -/
def addressLimit : Nat := 0x100000000

namespace Address

def null : Nat := 0

/-- The address `offset` bytes further, if there is one. -/
def add? (a offset : Nat) : Option Nat :=
  if a + offset < addressLimit then some (a + offset) else none

/-- The distance from `base` up to `a`, or `none` when `a` lies below it. -/
def offsetFrom? (a base : Nat) : Option Nat :=
  if base ≤ a then some (a - base) else none

/-- Reads a stack slot as an address. Negative and wider values name none. -/
def ofSlot? (v : Int64) : Option Nat :=
  if 0 ≤ v.toInt ∧ v.toInt < addressLimit then some v.toInt.toNat else none

/-- The stack slot that holds an address. -/
def toSlot (a : Nat) : Int64 :=
  Int64.ofNat a

/-- Eight hexadecimal digits after `0x`. -/
def text (a : Nat) : String :=
  "0x" ++ Hex.padded 8 a

theorem ofSlot?_toSlot {a : Nat} (h : a < addressLimit) : ofSlot? (toSlot a) = some a := by
  have hint : (Int64.ofNat a).toInt = a := by
    rw [Int64.toInt_ofNat_of_lt]
    simp only [addressLimit] at h
    omega
  have hrange : (0 : Int) ≤ a ∧ (a : Int) < addressLimit := by omega
  simp [ofSlot?, toSlot, hint, hrange]

end Address

end BytecodeKernel
