import BytecodeKernel.Bytes.BigEndian
/-!
Records: fields of fixed width and raw bytes, laid out one after the other with nothing between.
-/

namespace BytecodeKernel

/-- One field of a record. -/
inductive Field where
  /-- A number without a sign, in `width` bytes. -/
  | unsigned (width value : Nat)
  /-- A number in two's complement, in `width` bytes. -/
  | signed (width : Nat) (value : Int)
  /-- Bytes as they stand. -/
  | raw (bytes : List UInt8)

namespace Field

def encode : Field → List UInt8
  | unsigned width value => BigEndian.encode width value
  | signed width value => BigEndian.encodeSigned width value
  | raw bytes => bytes

/-- The bytes of a record: its fields in order. -/
def encodeAll (fields : List Field) : List UInt8 :=
  fields.flatMap encode

@[simp] theorem encodeAll_cons (f : Field) (fields : List Field) :
    encodeAll (f :: fields) = f.encode ++ encodeAll fields := by
  simp [encodeAll]

theorem encodeAll_singleton (f : Field) : encodeAll [f] = f.encode := by
  simp [encodeAll]

end Field

end BytecodeKernel
