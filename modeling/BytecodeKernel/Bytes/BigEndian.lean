/-!
Big-endian words. A word of `width` bytes holds its most significant byte first. Encoding keeps the
low `8 * width` bits of a number, and decoding an encoded word gives exactly those bits back.
-/

namespace BytecodeKernel.BigEndian

/-- The number of values that `width` bytes can hold. -/
def limit : Nat → Nat
  | 0 => 1
  | width + 1 => 256 * limit width

/-- The low `8 * width` bits of `n`, most significant byte first. -/
def encode : Nat → Nat → List UInt8
  | 0, _ => []
  | width + 1, n => encode width (n / 256) ++ [UInt8.ofNat n]

/-- The number a big-endian word stands for, read without a sign. -/
def decode (bytes : List UInt8) : Nat :=
  bytes.foldl (fun n b => n * 256 + b.toNat) 0

/-- Two's complement: negative numbers wrap to the top half of the word. -/
def encodeSigned (width : Nat) (v : Int) : List UInt8 :=
  encode width (v % limit width).toNat

/-- The number a big-endian word stands for in two's complement. -/
def decodeSigned (bytes : List UInt8) : Int :=
  (decode bytes : Int).bmod (limit bytes.length)

/-- The `width` bytes from `offset` on, or `none` when they run past the end. -/
def word? (bytes : List UInt8) (offset width : Nat) : Option (List UInt8) :=
  if offset + width ≤ bytes.length then some ((bytes.drop offset).take width) else none

theorem limit_pos (width : Nat) : 0 < limit width := by
  induction width with
  | zero => exact Nat.one_pos
  | succ width ih =>
    simp only [limit]
    omega

@[simp] theorem length_encode (width n : Nat) : (encode width n).length = width := by
  induction width generalizing n with
  | zero => rfl
  | succ width ih => simp [encode, ih]

@[simp] theorem length_encodeSigned (width : Nat) (v : Int) :
    (encodeSigned width v).length = width := by
  simp [encodeSigned]

theorem decode_append_singleton (bytes : List UInt8) (b : UInt8) :
    decode (bytes ++ [b]) = decode bytes * 256 + b.toNat := by
  simp [decode]

theorem decode_encode_mod (width n : Nat) : decode (encode width n) = n % limit width := by
  induction width generalizing n with
  | zero => simp [encode, decode, limit, Nat.mod_one]
  | succ width ih =>
    have hbyte : (UInt8.ofNat n).toNat = n % 256 := UInt8.toNat_ofNat'
    have hsplit : n % (256 * limit width) = n % 256 + 256 * (n / 256 % limit width) :=
      Nat.mod_mul
    rw [encode, decode_append_singleton, ih, hbyte, limit, hsplit]
    omega

theorem decode_encode {width n : Nat} (h : n < limit width) : decode (encode width n) = n := by
  rw [decode_encode_mod, Nat.mod_eq_of_lt h]

theorem decodeSigned_encodeSigned (width : Nat) (v : Int) :
    decodeSigned (encodeSigned width v) = v.bmod (limit width) := by
  have hpos : (0 : Int) < limit width := Int.ofNat_lt.2 (limit_pos width)
  have hnonneg := Int.emod_nonneg v (Int.ne_of_gt hpos)
  have hlt : (v % limit width).toNat < limit width := by
    have := Int.emod_lt_of_pos v hpos
    omega
  rw [decodeSigned, length_encodeSigned, encodeSigned, decode_encode hlt,
    Int.toNat_of_nonneg hnonneg, Int.emod_bmod]

end BytecodeKernel.BigEndian
