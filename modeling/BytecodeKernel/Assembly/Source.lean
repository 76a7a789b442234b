import BytecodeKernel.Assembly.Error
import BytecodeKernel.Assembly.Numeral
import BytecodeKernel.Assembly.Quoted
import BytecodeKernel.Text.Blank
import BytecodeKernel.Text.Utf8
/-!
Assembly text: one instruction a line, behind an optional label and before an optional comment. A
text is read into a listing line by line, and the first line at fault is reported; only a text whose
lines all read is laid out.
-/

namespace BytecodeKernel.Assembly

/-- The line up to a semicolon outside quotes. -/
def stripComment (line : List Char) : List Char :=
  go false false line
where
  /-- Whether the text before is an open quotation, and whether it ends in a backslash there. -/
  go (quoted escaped : Bool) : List Char → List Char
    | [] => []
    | c :: rest =>
      if escaped then c :: go quoted false rest
      else if c = '\\' then c :: go quoted quoted rest
      else if c = '"' then c :: go (!quoted) false rest
      else if c = ';' ∧ !quoted then []
      else c :: go quoted false rest

def isNameStart (c : Char) : Bool :=
  c.isAlpha || c == '_'

/-- Whether a word may name a label: ASCII letters, digits and underscores, no digit in front. -/
def isLabel : List Char → Bool
  | [] => false
  | c :: rest => isNameStart c && rest.all fun d => isNameStart d || d.isDigit

/-- A line without comment and outer blanks, split into its label, if any, and the rest. -/
def splitLabel (line : List Char) : Option (List Char) × List Char :=
  let text := trimBlanks (stripComment line)
  match splitAtFirst? (· == ':') text with
  | some (head, rest) =>
    if isLabel (trimBlanks head) then (some (trimBlanks head), trimBlanks rest) else (none, text)
  | none => (none, text)

/-- A numeral operand. -/
def numberOperand (line : Nat) (o : Opcode) (text : List Char) : Except AssemblyError Int :=
  match Numeral.read? text with
  | some v => .ok v
  | none =>
    if text.isEmpty then .error (.missingOperand line o)
    else .error (.invalidOperand line (String.ofList text))

/-- A number operand that is refused outside `lo ≤ v < hi`. -/
def boundedOperand (line : Nat) (o : Opcode) (lo hi : Int) (text : List Char) :
    Except AssemblyError Int := do
  let v ← numberOperand line o text
  if lo ≤ v ∧ v < hi then return v
  throw (.invalidOperand line (String.ofList text))

/-- The target of a jump or a binding. What reads as a number is an offset, even where it would also
do as a label. -/
def targetOperand (line : Nat) (o : Opcode) (text : List Char) : Except AssemblyError Target :=
  let invalid := .error (.invalidOperand line (String.ofList text))
  if text.isEmpty then .error (.missingOperand line o)
  else match Numeral.read? text with
    | some v =>
      if 0 ≤ v ∧ v < addressLimit then .ok (.offset (UInt32.ofNat v.toNat)) else invalid
    | none => if isLabel text then .ok (.label (String.ofList text)) else invalid

/-- Bytes given as quoted text. `shown` is the text reported when it does not read. -/
def quotedOperand (line : Nat) (text shown : List Char) : Except AssemblyError (List UInt8) :=
  match Quoted.read? text with
  | some chars => .ok (Utf8.encode chars)
  | none => .error (.invalidOperand line (String.ofList shown))

/-- An instruction from its opcode and the text of its operands. -/
def readInstruction (line : Nat) (o : Opcode) (text : List Char) :
    Except AssemblyError Instruction :=
  match o with
  | .push => do
    let v ← boundedOperand line o (-0x80000000) 0x100000000 text
    return .push (Int32.ofInt v)
  | .pushLong => do
    let v ← numberOperand line o text
    return .pushLong (Int64.ofInt v)
  | .spawn => do
    let some (priority, name) := splitAtFirst? isBlank text | throw (.missingOperand line o)
    let v ← boundedOperand line o (-0x80000000) 0x80000000 priority
    let bytes ← quotedOperand line (trimBlanks name) name
    return .spawn (Int32.ofInt v) bytes
  | .bindAt => do return .bindAt (← targetOperand line o text)
  | .jump => do return .jump (← targetOperand line o text)
  | .pushText => do
    if text.isEmpty then throw (.missingOperand line o)
    return .pushText (← quotedOperand line text text)
  | _ =>
    if text.isEmpty then .ok (.plain o)
    else .error (.invalidOperand line (String.ofList text))

/-- The items of one line, given its number. -/
def readLine (number : Nat) (line : List Char) : Except AssemblyError Listing := do
  let (label?, text) := splitLabel line
  let labels := label?.toList.map fun name => Item.label (String.ofList name)
  if text.isEmpty then return labels
  let (word, operands) := (splitAtFirst? isBlank text).getD (text, [])
  match Opcode.ofMnemonic? word with
  | some o => return labels ++ [.instruction (← readInstruction number o (trimBlanks operands))]
  | none => throw (.unknownMnemonic number (String.ofList word))

/-- The text between line feeds. -/
def lines (text : List Char) : List (List Char) :=
  text.foldr (fun c done =>
    if c = '\n' then [] :: done
    else match done with
      | [] => [[c]]
      | line :: rest => (c :: line) :: rest) [[]]

/-- Reads a whole text. -/
def read (source : String) : Except AssemblyError Listing := do
  let items ← ((lines source.toList).zipIdx 1).mapM fun (line, number) => readLine number line
  return items.flatten

/-- The image that a text spells. -/
def assemble (source : String) : Except AssemblyError (List UInt8) := do
  match (← read source).build with
  | .ok image => return image
  | .error e => throw (.listing e)

end BytecodeKernel.Assembly
