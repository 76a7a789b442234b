import BytecodeKernel.Bytes.Hex
import BytecodeKernel.Storage.Directory
/-!
Keyed storage. Each cell is a file named by the text of its key, which is hexadecimal. A cell has at
most one open stream; deleting the cell closes the stream, whoever holds it, and the holder then
gets an error from every further use.

What an operation changed stands also when it fails.
-/

namespace BytecodeKernel

inductive StorageError where
  | file (e : FileError)
  | unknownCell (key : List UInt8)
  /-- Another stream of the cell is open. -/
  | busy (key : List UInt8)
  | streamClosed
deriving DecidableEq

namespace StorageError

def message : StorageError → String
  | file e => s!"storage i/o failed: {e.message}"
  | unknownCell key => s!"no cell {Hex.text key}"
  | busy key => s!"cell {Hex.text key} already has an open stream"
  | streamClosed => "cell stream was closed"

end StorageError

/-- A stream as its holder has it. -/
structure Stream where
  /-- Tells streams apart. Each stream has a number of its own. -/
  number : Nat
  /-- What was opened. -/
  entry : Entry
  /-- Whether it was opened for writing. -/
  writes : Bool
  /-- Where the next byte is read or written. -/
  position : Nat := 0
deriving DecidableEq

structure Cell where
  /-- The name of the cell's file. -/
  name : String
  /-- The number of the stream opened last. -/
  stream : Option Nat := none

/-- How keys are written as names of files, and which names are read as keys. -/
structure Coding where
  text : List UInt8 → String
  decode? : String → Option (List UInt8)

namespace Coding

/-- What is relied on: a key is written as two lowercase digits for each byte, and what was written
is read as that key. Other names may be read as keys too, or not. -/
structure Lawful (c : Coding) : Prop where
  text_eq : ∀ key, c.text key = Hex.text key
  decode?_text : ∀ key, c.decode? (c.text key) = some key

/-- Reads digits of either case. -/
def hex : Coding where
  text := Hex.text
  decode? name := Hex.decode? name.toList

end Coding

structure CellStore where
  directory : Directory
  coding : Coding := .hex
  cells : Std.TreeMap (List UInt8) Cell := {}
  /-- The numbers of the streams that are open. -/
  openStreams : List Nat := []
  /-- The number of the next stream. -/
  nextStream : Nat := 0

abbrev CellM := EStateM StorageError CellStore

namespace CellStore

/-- The cells whose files a directory holds: every file whose name is read as a key. -/
def cellsOf (coding : Coding) (d : Directory) : Std.TreeMap (List UInt8) Cell :=
  d.entries.foldl (fun cells name entry =>
    match entry, coding.decode? name with
    | .file _, some key => cells.insert key { name }
    | _, _ => cells) {}

/-- The store of a directory. -/
def ofDirectory (coding : Coding) (d : Directory) : CellStore :=
  { directory := d, coding, cells := cellsOf coding d }

/-- The store made anew from its directory. Streams stay as they are, but no cell knows of them. -/
def reopen (s : CellStore) : CellStore :=
  { s with cells := cellsOf s.coding s.directory }

def contains (s : CellStore) (key : List UInt8) : Bool :=
  s.cells.contains key

def IsOpen (s : CellStore) (stream : Nat) : Prop :=
  stream ∈ s.openStreams

instance (s : CellStore) (stream : Nat) : Decidable (s.IsOpen stream) :=
  inferInstanceAs (Decidable (_ ∈ _))

/-- Whether a stream of the cell is open. -/
def IsBusy (s : CellStore) (c : Cell) : Prop :=
  ∃ stream ∈ c.stream, s.IsOpen stream

instance (s : CellStore) (c : Cell) : Decidable (s.IsBusy c) :=
  match h : c.stream with
  | none => isFalse (by simp [IsBusy, h])
  | some stream => decidable_of_iff (s.IsOpen stream) (by simp [IsBusy, h])

/-- Whether no open stream keeps a key from being opened. A key without a cell has none. -/
def IsReachable (s : CellStore) (key : List UInt8) : Prop :=
  ∀ c ∈ s.cells[key]?, ¬ s.IsBusy c

instance (s : CellStore) (key : List UInt8) : Decidable (s.IsReachable key) :=
  match h : s.cells[key]? with
  | none => isTrue (by simp [IsReachable, h])
  | some c => decidable_of_iff (¬ s.IsBusy c) (by simp [IsReachable, h])

/-- The store after a stream was closed. -/
def close (s : CellStore) (stream : Nat) : CellStore :=
  { s with openStreams := s.openStreams.filter (· ≠ stream) }

/-- Uses the directory, which stays as it was on failure. -/
def onDirectory {α : Type} (f : Directory → Except FileError (α × Directory)) : CellM α := fun s =>
  match f s.directory with
  | .ok (v, directory) => .ok v { s with directory }
  | .error e => .error (.file e) s

/-- Creates an empty cell, and says whether there was none. -/
def create (key : List UInt8) : CellM Bool := do
  let s ← get
  if s.contains key then return false
  let name := s.coding.text key
  let _ ← onDirectory (·.create name)
  modify fun s => { s with cells := s.cells.insert key { name } }
  return true

/-- Deletes a cell, its open stream and then its file, and says whether there was a cell. -/
def delete (key : List UInt8) : CellM Bool := do
  match (← get).cells[key]? with
  | none => return false
  | some c =>
    modify fun s =>
      let s := { s with cells := s.cells.erase key }
      (c.stream.map s.close).getD s
    if ((← get).directory.lookup? c.name).isSome then
      onDirectory fun d => (d.remove c.name).map ((), ·)
    return true

/-- Opens a stream over a cell that has none. -/
def openStream (key : List UInt8) (writes : Bool)
    (f : String → Directory → Except FileError (Entry × Directory)) : CellM Stream := do
  let s ← get
  match s.cells[key]? with
  | none => throw (.unknownCell key)
  | some c =>
    if s.IsBusy c then throw (.busy key)
    let entry ← onDirectory (f c.name)
    modify fun s => { s with
      cells := s.cells.insert key { c with stream := some s.nextStream }
      openStreams := s.nextStream :: s.openStreams
      nextStream := s.nextStream + 1 }
    return { number := s.nextStream, entry, writes }

def openReader (key : List UInt8) : CellM Stream :=
  openStream key false fun name d => (d.openEntry name).map (·, d)

/-- Opens a cell for writing. What it held is gone. -/
def openWriter (key : List UInt8) : CellM Stream :=
  openStream key true fun name d => (d.create name).map fun (file, d) => (.file file, d)

/-- Refuses a stream that is not open. -/
def requireOpen (stream : Stream) : CellM Unit := do
  if ¬ (← get).IsOpen stream.number then throw .streamClosed

/-- Reads at most `length` bytes, and gives the stream moved behind them. -/
def read (stream : Stream) (length : Nat) : CellM (List UInt8 × Stream) := do
  requireOpen stream
  match stream.entry with
  | .folder => throw (.file .isADirectory)
  | .file number =>
    let bytes := (← get).directory.readAt number stream.position length
    return (bytes, { stream with position := stream.position + bytes.length })

/-- Writes bytes, and gives the stream moved behind them. -/
def write (stream : Stream) (bytes : List UInt8) : CellM Stream := do
  requireOpen stream
  match stream.entry with
  | .folder => throw (.file .isADirectory)
  | .file number =>
    modify fun s => { s with directory := s.directory.writeAt number stream.position bytes }
    return { stream with position := stream.position + bytes.length }

def flush (stream : Stream) : CellM Unit :=
  requireOpen stream

/-- Gives a stream up. A writer is told when it was closed before. -/
def finish (stream : Stream) : CellM Unit := do
  if stream.writes then requireOpen stream
  modify (close · stream.number)

/-- The bytes of a cell. -/
def readAll (key : List UInt8) : CellM (List UInt8) := do
  let stream ← openReader key
  modify (close · stream.number)
  match stream.entry with
  | .file number => return (← get).directory.bytes number
  | .folder => throw (.file .isADirectory)

/-- Replaces the bytes of a cell. -/
def writeAll (key : List UInt8) (bytes : List UInt8) : CellM Unit := do
  let stream ← openWriter key
  let stream ← write stream bytes
  finish stream

@[simp] theorem isOpen_close (s : CellStore) (closed stream : Nat) :
    (s.close closed).IsOpen stream ↔ stream ≠ closed ∧ s.IsOpen stream := by
  simp [IsOpen, close, and_comm]

@[simp] theorem cells_close (s : CellStore) (stream : Nat) : (s.close stream).cells = s.cells := rfl

@[simp] theorem directory_close (s : CellStore) (stream : Nat) :
    (s.close stream).directory = s.directory := rfl

/-- A key without a cell is reachable. -/
theorem isReachable_of_not_contains {s : CellStore} {key : List UInt8}
    (h : s.contains key = false) : s.IsReachable key := by
  have hmem : key ∉ s.cells := by
    rw [Std.TreeMap.mem_iff_contains]
    exact Bool.not_eq_true _ ▸ h
  simp [IsReachable, Std.TreeMap.getElem?_eq_none hmem]

end CellStore

end BytecodeKernel
