/-!
UTF-8. Encoding is exact. Decoding accepts any bytes: each longest run of bytes that begins a
character but does not complete it, and each byte that begins none, becomes one U+FFFD.
-/

namespace BytecodeKernel.Utf8

def encode (text : List Char) : List UInt8 :=
  text.flatMap String.utf8EncodeChar

/-- The character that stands for bytes that are no character. -/
def replacement : Char := '\uFFFD'

/-- The values a byte may take, ends included. -/
structure Range where
  lo : Nat
  hi : Nat
deriving DecidableEq

instance : Membership Nat Range where
  mem r n := r.lo ≤ n ∧ n ≤ r.hi

instance (n : Nat) (r : Range) : Decidable (n ∈ r) :=
  inferInstanceAs (Decidable (r.lo ≤ n ∧ n ≤ r.hi))

/-- Where the decoder stands: between characters, or inside one whose bits so far are `bits` and
whose next byte must lie in `next` and later ones in `later`. -/
inductive State where
  | between
  | inside (bits : Nat) (next : Range) (later : List Range)

/-- A continuation byte with no further restriction. -/
def continuation : Range := ⟨0x80, 0xBF⟩

/-- The state after a byte that begins a character of several bytes. The first continuation is
restricted where a shorter form, a surrogate or a value past U+10FFFF would otherwise arise. -/
def lead? (b : Nat) : Option State :=
  if b ∈ Range.mk 0xC2 0xDF then some (.inside (b - 0xC0) continuation [])
  else if b = 0xE0 then some (.inside 0 ⟨0xA0, 0xBF⟩ [continuation])
  else if b = 0xED then some (.inside 0xD ⟨0x80, 0x9F⟩ [continuation])
  else if b ∈ Range.mk 0xE1 0xEF then some (.inside (b - 0xE0) continuation [continuation])
  else if b = 0xF0 then some (.inside 0 ⟨0x90, 0xBF⟩ [continuation, continuation])
  else if b ∈ Range.mk 0xF1 0xF3 then
    some (.inside (b - 0xF0) continuation [continuation, continuation])
  else if b = 0xF4 then some (.inside 4 ⟨0x80, 0x8F⟩ [continuation, continuation])
  else none

/-- Reads a byte between characters. -/
def start (b : Nat) : List Char × State :=
  if b < 0x80 then ([Char.ofNat b], .between)
  else match lead? b with
    | some state => ([], state)
    | none => ([replacement], .between)

/-- Reads one byte: the characters it settles and the state after it. A byte that cannot continue
the open character closes it with a replacement and is then read afresh. -/
def State.step (state : State) (b : Nat) : List Char × State :=
  match state with
  | between => start b
  | inside bits next later =>
    if b ∈ next then
      let bits := bits * 64 + b % 64
      match later with
      | [] => ([Char.ofNat bits], between)
      | r :: rs => ([], inside bits r rs)
    else
      let (chars, state) := start b
      (replacement :: chars, state)

/-- Decodes from a given state. A character still open at the end becomes one replacement. -/
def decodeFrom : State → List UInt8 → List Char
  | .between, [] => []
  | .inside .., [] => [replacement]
  | state, b :: rest =>
    let (chars, state) := state.step b.toNat
    chars ++ decodeFrom state rest

def decodeLossy (bytes : List UInt8) : List Char :=
  decodeFrom .between bytes

@[simp] theorem decodeLossy_nil : decodeLossy [] = [] := rfl

end BytecodeKernel.Utf8
