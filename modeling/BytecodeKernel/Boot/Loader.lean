import BytecodeKernel.Boot.ImageFiles
import BytecodeKernel.Kernel.Dispatch
import BytecodeKernel.Program.Listing
import BytecodeKernel.Text.Utf8
/-!
Booting: a program image becomes the root process of a kernel. A boot that fails leaves no process
behind.
-/

namespace BytecodeKernel

/-- Where a boot failed, and why. -/
inductive BootFailure where
  | notLoaded (name root : String) (cause : BootError)
  | notCreated (cause : KernelError)
  | notStarted (id : Nat) (cause : KernelError)
deriving DecidableEq

namespace BootFailure

/-- What failed, followed by what it failed for. -/
def messages : BootFailure → List String
  | notLoaded name root cause =>
    [s!"failed to load boot image `{name}` from {root}", cause.message]
  | notCreated cause => ["failed to create the root process", cause.message]
  | notStarted id cause => [s!"failed to start root process {id}", cause.message]

end BootFailure

structure BootSettings where
  image : String := "kernel.img"
  priority : Nat := defaultPriority
  /-- Whether the built-in image takes the place of one that is missing. -/
  fallback : Bool := false

namespace Boot

/-- A program that says that no image was found. -/
def builtinImage : List UInt8 :=
  let text := Utf8.encode "boot: no image found, running built-in program".toList
  (Listing.build ((Instruction.printText text).map .instruction)).toOption.getD []

/-- The image to boot. -/
def resolve (files : ImageFiles) (settings : BootSettings) : Except BootFailure (List UInt8) :=
  match files.load settings.image with
  | .ok bytes => .ok bytes
  | .error cause =>
    match cause, settings.fallback with
    | .imageNotFound .., true => .ok builtinImage
    | _, _ => .error (.notLoaded settings.image files.root cause)

/-- Gives a process its program and hands it to a worker. A process that cannot start is halted. -/
def start (id : Nat) (image : List UInt8) : KernelM Unit :=
  tryCatch
    (do
      Kernel.bindProgram id image
      let _ ← Kernel.dispatch id)
    fun e => do
      modify (Kernel.attempt (Kernel.halt id))
      throw e

/-- Creates the root process and starts the image on it. -/
def boot (files : ImageFiles) (settings : BootSettings) : TenantM BootFailure System Nat := do
  let image ← match resolve files settings with
    | .ok image => pure image
    | .error e => throw e
  let id ← EStateM.adaptExcept .notCreated (Kernel.generate none)
  TenantM.modifySelf (·.modifyProcess id ({ · with
    priority := settings.priority
    name := Utf8.encode settings.image.toList }))
  EStateM.adaptExcept (.notStarted id) (start id image)
  return id

end Boot

end BytecodeKernel
