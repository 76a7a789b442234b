import Std.Data.TreeMap
/-!
A directory of files. A name leads to a file by its number, and whoever opened the file holds that
number too: a file that loses its name, or whose bytes are replaced, stays the same file. Which
names a file can have is up to the file system.
-/

namespace BytecodeKernel

inductive FileError where
  | notFound
  | isADirectory
  | alreadyExists
  | nameTooLong
  /-- The name holds a NUL. -/
  | nulInName
deriving DecidableEq

namespace FileError

def message : FileError → String
  | notFound => "No such file or directory"
  | isADirectory => "Is a directory"
  | alreadyExists => "File exists"
  | nameTooLong => "File name too long"
  | nulInName => "file name contained an unexpected NUL byte"

end FileError

/-- What a name stands for. -/
inductive Entry where
  | file (number : Nat)
  | folder
deriving DecidableEq

/-- The longest name, in bytes. -/
def maxNameBytes : Nat := 255

/-- Why no file can have a name, if none can. -/
def nameError? (name : String) : Option FileError :=
  if '\x00' ∈ name.toList then some .nulInName
  else if maxNameBytes < name.utf8ByteSize then some .nameTooLong
  else none

structure Directory where
  entries : Std.TreeMap String Entry := {}
  /-- The bytes of every file that ever was. -/
  contents : Std.TreeMap Nat (List UInt8) := {}
  /-- The number of the next new file. -/
  nextFile : Nat := 0
  /-- The names that no file can have, which is up to the file system. -/
  refusal? : String → Option FileError := nameError?

namespace Directory

/-- Whether a name leads to the directory itself or to the one above it. -/
def IsReserved (name : String) : Prop :=
  name = "" ∨ name = "." ∨ name = ".."

instance (name : String) : Decidable (IsReserved name) :=
  inferInstanceAs (Decidable (_ ∨ _))

/-- What stands under a name. -/
def lookup? (d : Directory) (name : String) : Option Entry :=
  if IsReserved name then some .folder else d.entries[name]?

/-- The names in order. -/
def names (d : Directory) : List String :=
  d.entries.keys

/-- The bytes of a file. -/
def bytes (d : Directory) (file : Nat) : List UInt8 :=
  d.contents.getD file []

def setBytes (d : Directory) (file : Nat) (bytes : List UInt8) : Directory :=
  { d with contents := d.contents.insert file bytes }

/-- Opens what stands under a name for reading. A folder can be opened, but not read. -/
def openEntry (d : Directory) (name : String) : Except FileError Entry :=
  match d.lookup? name with
  | some entry => .ok entry
  | none => .error ((d.refusal? name).getD .notFound)

/-- Opens a file for writing: a new one, or the old one emptied. -/
def create (d : Directory) (name : String) : Except FileError (Nat × Directory) :=
  match d.lookup? name with
  | some .folder => .error .isADirectory
  | some (.file number) => .ok (number, d.setBytes number [])
  | none =>
    match d.refusal? name with
    | some e => .error e
    | none => .ok (d.nextFile,
        { d with
          entries := d.entries.insert name (.file d.nextFile)
          contents := d.contents.insert d.nextFile []
          nextFile := d.nextFile + 1 })

/-- Replaces the bytes of the file under a name, which comes into being if need be. -/
def store (d : Directory) (name : String) (bytes : List UInt8) : Except FileError Directory := do
  let (file, d) ← d.create name
  return d.setBytes file bytes

/-- The bytes under a name. -/
def load (d : Directory) (name : String) : Except FileError (List UInt8) := do
  match ← d.openEntry name with
  | .file number => return d.bytes number
  | .folder => throw .isADirectory

/-- Makes sure that a folder stands under a name. A file there is in the way. -/
def makeFolder (d : Directory) (name : String) : Except FileError Directory :=
  match d.lookup? name with
  | some .folder => .ok d
  | some (.file _) => .error .alreadyExists
  | none =>
    match d.refusal? name with
    | some e => .error e
    | none => .ok { d with entries := d.entries.insert name .folder }

/-- Takes a file's name away. Folders stay. -/
def remove (d : Directory) (name : String) : Except FileError Directory := do
  match ← d.openEntry name with
  | .file _ => return { d with entries := d.entries.erase name }
  | .folder => throw .isADirectory

/-- The bytes of a file from a position on, at most `length` of them. -/
def readAt (d : Directory) (file position length : Nat) : List UInt8 :=
  ((d.bytes file).drop position).take length

/-- Writes into a file. A gap before the position fills with zeros. -/
def writeAt (d : Directory) (file position : Nat) (bytes : List UInt8) : Directory :=
  if bytes = [] then d
  else
    let old := (d.bytes file).rightpad position 0
    d.setBytes file (old.take position ++ bytes ++ old.drop (position + bytes.length))

@[simp] theorem bytes_setBytes (d : Directory) (file other : Nat) (bytes : List UInt8) :
    (d.setBytes file bytes).bytes other = if file = other then bytes else d.bytes other := by
  simp [setBytes, Directory.bytes, Std.TreeMap.getD_insert]

@[simp] theorem lookup?_setBytes (d : Directory) (file : Nat) (bytes : List UInt8) (name : String) :
    (d.setBytes file bytes).lookup? name = d.lookup? name := rfl

/-- What was opened for writing stands under its name. -/
theorem lookup?_of_create {d after : Directory} {name : String} {file : Nat}
    (h : d.create name = .ok (file, after)) : after.lookup? name = some (.file file) := by
  unfold create at h
  split at h
  · contradiction
  · rename_i hentry
    cases h
    simpa using hentry
  · rename_i hentry
    split at h
    · contradiction
    · cases h
      have hname : ¬ IsReserved name := by
        intro hname
        simp [lookup?, hname] at hentry
      simp [lookup?, hname]

/-- What was stored is read back. -/
theorem load_of_store {d after : Directory} {name : String} {bytes : List UInt8}
    (h : d.store name bytes = .ok after) : after.load name = .ok bytes := by
  unfold store at h
  cases hcreate : d.create name with
  | error e => simp [hcreate, bind, Except.bind] at h
  | ok made =>
    obtain ⟨file, made⟩ := made
    simp only [hcreate, bind, Except.bind, pure, Except.pure] at h
    cases h
    have hentry := lookup?_of_create hcreate
    simp [load, openEntry, hentry, bind, Except.bind, pure, Except.pure]

end Directory

end BytecodeKernel
