/-!
Hexadecimal text. Every byte is written as two lowercase digits; both cases are read. Reading what
was written gives the bytes back.
-/

namespace BytecodeKernel.Hex

/-- The lowercase digit of a value below sixteen. -/
def digit (n : Nat) : Char :=
  if n < 10 then Char.ofNat ('0'.toNat + n) else Char.ofNat ('a'.toNat + (n - 10))

/-- The value of a hexadecimal digit of either case. -/
def value? (c : Char) : Option Nat :=
  if '0' ≤ c ∧ c ≤ '9' then some (c.toNat - '0'.toNat)
  else if 'a' ≤ c ∧ c ≤ 'f' then some (c.toNat - 'a'.toNat + 10)
  else if 'A' ≤ c ∧ c ≤ 'F' then some (c.toNat - 'A'.toNat + 10)
  else none

def encodeByte (b : UInt8) : List Char :=
  [digit (b.toNat / 16), digit (b.toNat % 16)]

/-- Two digits for each byte, the high one first. -/
def encode (bytes : List UInt8) : List Char :=
  bytes.flatMap encodeByte

/-- Reads pairs of digits. Refuses any other character and an odd number of digits. -/
def decode? : List Char → Option (List UInt8)
  | [] => some []
  | [_] => none
  | hi :: lo :: rest => do
    let h ← value? hi
    let l ← value? lo
    let bytes ← decode? rest
    return UInt8.ofNat (h * 16 + l) :: bytes

/-- The text of `encode`. -/
def text (bytes : List UInt8) : String :=
  String.ofList (encode bytes)

/-- A number in hexadecimal, padded on the left with zeros to at least `digits` digits. -/
def padded (digits n : Nat) : String :=
  String.ofList ((Nat.toDigits 16 n).leftpad digits '0')

theorem value?_digit : ∀ n < 16, value? (digit n) = some n := by
  decide

@[simp] theorem length_encode (bytes : List UInt8) : (encode bytes).length = 2 * bytes.length := by
  induction bytes with
  | nil => rfl
  | cons b bytes ih =>
    simp only [encode, List.flatMap_cons, List.length_append, List.length_cons] at *
    simp only [ih, encodeByte, List.length_cons, List.length_nil]
    omega

theorem decode?_encode (bytes : List UInt8) : decode? (encode bytes) = some bytes := by
  induction bytes with
  | nil => rfl
  | cons b bytes ih =>
    have hb : b.toNat < 256 := b.toNat_lt
    have hhi := value?_digit (b.toNat / 16) (by omega)
    have hlo := value?_digit (b.toNat % 16) (by omega)
    have hbyte : UInt8.ofNat (b.toNat / 16 * 16 + b.toNat % 16) = b := by
      rw [show b.toNat / 16 * 16 + b.toNat % 16 = b.toNat by omega]
      exact UInt8.ofNat_toNat
    have hrest : decode? (bytes.flatMap encodeByte) = some bytes := ih
    simp only [encode, encodeByte, decode?, List.flatMap_cons, List.cons_append, List.nil_append,
      hhi, hlo, hrest, hbyte, Option.bind_eq_bind, Option.bind_some, Option.pure_def]

end BytecodeKernel.Hex
