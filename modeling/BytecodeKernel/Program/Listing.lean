import BytecodeKernel.Address
import BytecodeKernel.Bytes.Record
import BytecodeKernel.Program.Opcode
/-!
Listings: programs as instructions and labels in order. Building a listing lays the instructions out
one after the other, gives each label the offset of the instruction behind it, and writes that
offset wherever the label is a target.
-/

namespace BytecodeKernel

/-- Where a jump or a binding leads. -/
inductive Target where
  | label (name : String)
  | offset (n : UInt32)
deriving DecidableEq

/-- One instruction with its operands. -/
inductive Instruction where
  /-- An opcode byte alone. -/
  | plain (o : Opcode)
  | push (v : Int32)
  | pushLong (v : Int64)
  | spawn (priority : Int32) (name : List UInt8)
  | bindAt (target : Target)
  | jump (target : Target)
  | pushText (bytes : List UInt8)
deriving DecidableEq

/-- One entry of a listing. -/
inductive Item where
  /-- A name for the offset of what follows. -/
  | label (name : String)
  | instruction (i : Instruction)
deriving DecidableEq

/-- Why a listing has no image. -/
inductive ListingError where
  | unknownLabel (name : String)
  | duplicateLabel (name : String)
  | literalTooLong (length : Nat)
  | imageTooLarge (length : Nat)
deriving DecidableEq

namespace ListingError

def message : ListingError → String
  | unknownLabel name => s!"label `{name}` is never defined"
  | duplicateLabel name => s!"label `{name}` is defined twice"
  | literalTooLong length => s!"inline literal of {length} bytes exceeds 65535"
  | imageTooLarge length => s!"image of {length} bytes does not fit a 32-bit offset"

end ListingError

/-- The bound of an inline literal, whose length is written in two bytes. -/
def literalLimit : Nat := 0x10000

/-- A literal behind its length. One that is too long is left out and counted as empty. -/
def literalFields (bytes : List UInt8) : List Field :=
  if bytes.length < literalLimit then [.unsigned 2 bytes.length, .raw bytes] else [.unsigned 2 0]

namespace Target

/-- The offset of a target, given the offsets of the labels. -/
def resolve (labels : List (String × Nat)) : Target → Except ListingError Nat
  | label name =>
    match labels.lookup name with
    | some n => .ok n
    | none => .error (.unknownLabel name)
  | offset n => .ok n.toNat

end Target

namespace Instruction

def opcode : Instruction → Opcode
  | plain o => o
  | push _ => .push
  | pushLong _ => .pushLong
  | spawn .. => .spawn
  | bindAt _ => .bindAt
  | jump _ => .jump
  | pushText _ => .pushText

/-- The operands as they follow the opcode byte. -/
def operands (labels : List (String × Nat)) : Instruction → Except ListingError (List Field)
  | plain _ => .ok []
  | push v => .ok [.signed 4 v.toInt]
  | pushLong v => .ok [.signed 8 v.toInt]
  | spawn priority name => .ok (.signed 4 priority.toInt :: literalFields name)
  | bindAt target | jump target => do return [.unsigned 4 (← target.resolve labels)]
  | pushText bytes => .ok (literalFields bytes)

/-- The number of bytes an instruction takes. -/
def size : Instruction → Nat
  | plain _ => 1
  | push _ | bindAt _ | jump _ => 5
  | pushLong _ => 9
  | spawn _ name => 7 + if name.length < literalLimit then name.length else 0
  | pushText bytes => 3 + if bytes.length < literalLimit then bytes.length else 0

def encode (labels : List (String × Nat)) (i : Instruction) :
    Except ListingError (List UInt8) := do
  return i.opcode.code :: Field.encodeAll (← i.operands labels)

/-- The literal of an instruction that is too long to be written, as an error. -/
def defect? : Instruction → Option ListingError
  | spawn _ bytes | pushText bytes =>
    if bytes.length < literalLimit then none else some (.literalTooLong bytes.length)
  | _ => none

/-- Two instructions that print a text: push it, print it. -/
def printText (text : List UInt8) : List Instruction :=
  [pushText text, plain .print]

/-- Two instructions that halt: push the flag, halt. -/
def haltWith (subtree : Bool) : List Instruction :=
  [push (if subtree then 0 else 1), plain .halt]

end Instruction

namespace Item

def size : Item → Nat
  | label _ => 0
  | instruction i => i.size

def encode (labels : List (String × Nat)) : Item → Except ListingError (List UInt8)
  | label _ => .ok []
  | instruction i => i.encode labels

end Item

/-- A program before it is laid out. -/
abbrev Listing := List Item

namespace Listing

/-- The number of bytes of the image, and the offset of whatever is added next. -/
def size : Listing → Nat
  | [] => 0
  | i :: rest => i.size + size rest

/-- The labels with their offsets, in order, when the listing starts at `offset`. -/
def labelsFrom (offset : Nat) : Listing → List (String × Nat)
  | [] => []
  | .label name :: rest => (name, offset) :: labelsFrom offset rest
  | .instruction i :: rest => labelsFrom (offset + i.size) rest

def labels (l : Listing) : List (String × Nat) :=
  labelsFrom 0 l

/-- The first label defined again, or literal too long, given the labels `seen` before. -/
def defectAfter? (seen : List String) : Listing → Option ListingError
  | [] => none
  | .label name :: rest =>
    if name ∈ seen then some (.duplicateLabel name) else defectAfter? (name :: seen) rest
  | .instruction i :: rest => i.defect?.or (defectAfter? seen rest)

/-- The first fault of a listing that does not depend on how its targets resolve. -/
def defect? (l : Listing) : Option ListingError :=
  defectAfter? [] l

/-- The image of a listing. A defect is reported before the size, and the size before a target that
no label resolves; among targets the first one counts. -/
def build (l : Listing) : Except ListingError (List UInt8) := do
  match l.defect? with
  | some e => throw e
  | none =>
    if addressLimit ≤ l.size then throw (.imageTooLarge l.size)
    return (← l.mapM (Item.encode l.labels)).flatten

@[simp] theorem size_append (l₁ l₂ : Listing) : size (l₁ ++ l₂) = size l₁ + size l₂ := by
  induction l₁ with
  | nil => simp [size]
  | cons i rest ih =>
    simp only [List.cons_append, size, ih]
    omega

end Listing

theorem length_literalFields (bytes : List UInt8) :
    (Field.encodeAll (literalFields bytes)).length
      = 2 + if bytes.length < literalLimit then bytes.length else 0 := by
  simp only [literalFields]
  split <;> simp [Field.encodeAll, Field.encode]

/-- An instruction that can be written takes as many bytes as its size says. -/
theorem Instruction.length_of_encode {labels : List (String × Nat)} {i : Instruction}
    {bytes : List UInt8} (h : i.encode labels = .ok bytes) : bytes.length = i.size := by
  cases i with
  | bindAt target | jump target =>
    cases hresolve : target.resolve labels with
    | error e => simp [Instruction.encode, operands, hresolve, bind, Except.bind] at h
    | ok offset =>
      simp only [Instruction.encode, operands, hresolve, bind, Except.bind, pure, Except.pure,
        Except.ok.injEq] at h
      subst h
      simp [Field.encodeAll, Field.encode, Instruction.size]
  | spawn priority name =>
    simp only [Instruction.encode, operands, bind, Except.bind, pure, Except.pure,
      Except.ok.injEq] at h
    subst h
    simp only [Field.encodeAll_cons, List.length_cons, List.length_append, Field.encode,
      BigEndian.length_encodeSigned, length_literalFields, Instruction.size]
    omega
  | pushText bytes =>
    simp only [Instruction.encode, operands, bind, Except.bind, pure, Except.pure,
      Except.ok.injEq] at h
    subst h
    simp only [List.length_cons, length_literalFields, Instruction.size]
    omega
  | plain o | push v | pushLong v =>
    simp only [Instruction.encode, operands, bind, Except.bind, pure, Except.pure,
      Except.ok.injEq] at h
    subst h
    simp [Field.encodeAll, Field.encode, Instruction.size]

end BytecodeKernel
