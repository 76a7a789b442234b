import BytecodeKernel.Bytes.Hex
/-!
Numerals of assembly text: decimal, or hexadecimal behind `0x`, with underscores allowed anywhere
and read as nothing. A minus in front negates what follows, which may carry a sign of its own.
-/

namespace BytecodeKernel.Numeral

/-- The value of a digit in a base of at most sixteen. -/
def digit? (base : Nat) (c : Char) : Option Nat :=
  (Hex.value? c).filter (· < base)

/-- The value of one or more digits, the most significant first. -/
def digits? (base : Nat) (text : List Char) : Option Nat :=
  if text.isEmpty then none
  else text.foldlM (fun n c => (digit? base c).map (n * base + ·)) 0

/-- Digits behind at most one sign. -/
def signed? (base : Nat) : List Char → Option Int
  | '-' :: text => (digits? base text).map fun n => -(n : Int)
  | '+' :: text => (digits? base text).map Int.ofNat
  | text => (digits? base text).map Int.ofNat

/-- A number in the base its beginning names. -/
def magnitude? : List Char → Option Int
  | '0' :: 'x' :: text | '0' :: 'X' :: text => signed? 16 text
  | text => signed? 10 text

/-- The number a text spells, of any size. -/
def value? (text : List Char) : Option Int :=
  match text.filter (· != '_') with
  | '-' :: rest => (magnitude? rest).map (- ·)
  | rest => magnitude? rest

/-- The number a text spells, if it fits in 64 bits. -/
def read? (text : List Char) : Option Int :=
  (value? text).filter fun v => -0x8000000000000000 ≤ v ∧ v < 0x8000000000000000

example : read? "0x_ff".toList = some 255 := by decide

example : read? "--5".toList = some 5 := by decide

example : read? "_".toList = none := by decide

end BytecodeKernel.Numeral
