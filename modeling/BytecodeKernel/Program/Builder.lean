import BytecodeKernel.Program.Listing
import Std.Data.HashMap
/-!
Programs as they are written. Each instruction is encoded when it is added, and where it leads to a
label there are four zeros at first. When the program is built these are overwritten with the offset
of the label, which may have come later. What cannot be written is noted, and the first such note is
what the build reports.
-/

namespace BytecodeKernel

/-- Bytes of which some are overwritten, from an offset on. -/
def patch (code : List UInt8) (offset : Nat) (bytes : List UInt8) : List UInt8 :=
  code.take offset ++ bytes ++ code.drop (offset + bytes.length)

/-- A program that is being written. -/
structure Builder where
  code : List UInt8 := []
  labels : Std.HashMap String Nat := {}
  /-- Where the offset of a label is missing, oldest first. -/
  fixups : List (Nat × String) := []
  errors : List ListingError := []

namespace Builder

/-- The offset of whatever is added next, in 32 bits. -/
def offset (b : Builder) : Nat :=
  b.code.length % addressLimit

def emit (b : Builder) (f : Field) : Builder :=
  { b with code := b.code ++ f.encode }

def report (b : Builder) (e : ListingError) : Builder :=
  { b with errors := b.errors ++ [e] }

/-- Gives a label the offset of what follows, also when it has one. -/
def label (b : Builder) (name : String) : Builder :=
  let defined := { b with labels := b.labels.insert name b.offset }
  if name ∈ b.labels then defined.report (.duplicateLabel name) else defined

def literal (b : Builder) (bytes : List UInt8) : Builder :=
  if bytes.length < literalLimit then (b.emit (.unsigned 2 bytes.length)).emit (.raw bytes)
  else (b.report (.literalTooLong bytes.length)).emit (.unsigned 2 0)

/-- Leaves room for the offset of a label. -/
def fixup (b : Builder) (name : String) : Builder :=
  { b with fixups := b.fixups ++ [(b.code.length, name)] }.emit (.unsigned 4 0)

def target (b : Builder) : Target → Builder
  | .label name => b.fixup name
  | .offset n => b.emit (.unsigned 4 n.toNat)

def instruction (b : Builder) (i : Instruction) : Builder :=
  let b := b.emit (.raw [i.opcode.code])
  match i with
  | .plain _ => b
  | .push v => b.emit (.signed 4 v.toInt)
  | .pushLong v => b.emit (.signed 8 v.toInt)
  | .spawn priority name => (b.emit (.signed 4 priority.toInt)).literal name
  | .bindAt target | .jump target => b.target target
  | .pushText bytes => b.literal bytes

def add (b : Builder) : Item → Builder
  | .label name => b.label name
  | .instruction i => b.instruction i

/-- Adds a listing, item by item. -/
def addAll (b : Builder) (l : Listing) : Builder :=
  l.foldl add b

/-- Writes the offset of a label where it is missing. -/
def resolve (labels : Std.HashMap String Nat) (code : List UInt8) (missing : Nat × String) :
    Except ListingError (List UInt8) :=
  match labels[missing.2]? with
  | some n => .ok (patch code missing.1 (BigEndian.encode 4 n))
  | none => .error (.unknownLabel missing.2)

/-- The code with all offsets, given those of the labels. -/
def resolved (labels : Std.HashMap String Nat) (b : Builder) : Except ListingError (List UInt8) :=
  b.fixups.foldlM (resolve labels) b.code

/-- The image of the program. -/
def build (b : Builder) : Except ListingError (List UInt8) := do
  if let some e := b.errors.head? then throw e
  if addressLimit ≤ b.code.length then throw (.imageTooLarge b.code.length)
  b.resolved b.labels

end Builder

end BytecodeKernel
