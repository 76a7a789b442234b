import BytecodeKernel.Storage.Directory
/-!
Program images in files. Images lie directly under one root, so a name that could lead elsewhere is
refused before anything is looked up.
-/

namespace BytecodeKernel

inductive BootError where
  | imageNotFound (name root : String)
  /-- The name could lead out of the root. -/
  | invalidName (name : String)
  | emptyImage (name : String)
  | file (e : FileError)
deriving DecidableEq

namespace BootError

def message : BootError → String
  | imageNotFound name root => s!"program image `{name}` not found under {root}"
  | invalidName name => s!"invalid image name `{name}`"
  | emptyImage name => s!"program image `{name}` is empty"
  | file e => e.message

end BootError

structure ImageFiles where
  /-- The path of the root. -/
  root : String
  /-- What is in the root. A root that does not exist yet holds nothing. -/
  directory : Directory := {}

namespace ImageFiles

/-- Whether a name stays in the root. -/
def IsPlainName (name : String) : Prop :=
  name ≠ "" ∧ name ≠ "." ∧ name ≠ ".." ∧ '/' ∉ name.toList ∧ '\\' ∉ name.toList

instance (name : String) : Decidable (IsPlainName name) :=
  inferInstanceAs (Decidable (_ ∧ _))

def path (f : ImageFiles) (name : String) : String :=
  f.root ++ "/" ++ name

/-- The number of the file with an image. -/
def find (f : ImageFiles) (name : String) : Except BootError Nat :=
  if IsPlainName name then
    match f.directory.lookup? name with
    | some (.file number) => .ok number
    | _ => .error (.imageNotFound name f.root)
  else .error (.invalidName name)

/-- The path of the file with an image. -/
def locate (f : ImageFiles) (name : String) : Except BootError String :=
  (f.find name).map fun _ => f.path name

def contains (f : ImageFiles) (name : String) : Bool :=
  (f.find name).toBool

/-- The bytes of an image, which has at least one. -/
def load (f : ImageFiles) (name : String) : Except BootError (List UInt8) := do
  let bytes := f.directory.bytes (← f.find name)
  if bytes = [] then throw (.emptyImage name)
  return bytes

/-- Puts an image under a name, in place of what was there. -/
def store (f : ImageFiles) (name : String) (bytes : List UInt8) : Except BootError ImageFiles :=
  if IsPlainName name then
    match f.directory.store name bytes with
    | .ok directory => .ok { f with directory }
    | .error e => .error (.file e)
  else .error (.invalidName name)

/-- A stored image is loaded as it is, unless it is empty. -/
theorem load_of_store {f after : ImageFiles} {name : String} {bytes : List UInt8}
    (h : f.store name bytes = .ok after) (hbytes : bytes ≠ []) : after.load name = .ok bytes := by
  unfold store at h
  split at h
  · rename_i hname
    cases hstore : f.directory.store name bytes with
    | error e => simp [hstore] at h
    | ok directory =>
      simp only [hstore] at h
      cases h
      have hload := Directory.load_of_store hstore
      unfold Directory.load Directory.openEntry at hload
      cases hentry : directory.lookup? name with
      | none => simp [hentry, bind, Except.bind] at hload
      | some entry =>
        cases entry with
        | folder =>
          simp [hentry, bind, Except.bind, throw, throwThe, MonadExceptOf.throw] at hload
        | file number =>
          have hread : directory.bytes number = bytes := by
            simpa [hentry, bind, Except.bind, pure, Except.pure] using hload
          simp [load, find, hname, hentry, hread, hbytes, bind, Except.bind, pure, Except.pure]
  · contradiction

end ImageFiles

end BytecodeKernel
