import BytecodeKernel.Bytes.BigEndian
/-!
Tagged words: 32 bits with a type tag in the top byte and an address in the low three bytes.
-/

namespace BytecodeKernel.TaggedWord

/-- The top byte of a 32-bit word. -/
def tag (word : Nat) : Nat :=
  word / 0x1000000 % 256

/-- The low three bytes of a word, as a number. -/
def address (word : Nat) : Nat :=
  word % 0x1000000

/-- The low three bytes of a word, most significant first. -/
def addressBytes (word : Nat) : List UInt8 :=
  BigEndian.encode 3 word

theorem decode_addressBytes (word : Nat) :
    BigEndian.decode (addressBytes word) = address word := by
  simp [addressBytes, BigEndian.decode_encode_mod, address, BigEndian.limit]

theorem tag_mul_add_address {word : Nat} (h : word < 0x100000000) :
    tag word * 0x1000000 + address word = word := by
  simp only [tag, address]
  omega

end BytecodeKernel.TaggedWord
