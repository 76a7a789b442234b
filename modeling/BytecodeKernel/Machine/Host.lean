import BytecodeKernel.Machine.Fault
import BytecodeKernel.Memory.Image
import BytecodeKernel.Memory.Tenant
/-!
Hosts: whoever owns the processes that a program may ask about. A program never touches another
process itself; it asks its host, which may change its own state and the arena.
-/

namespace BytecodeKernel

/-- A service of a host with state `σ`. What it changed stands even when it refuses. -/
abbrev HostM (σ : Type) := TenantM Fault σ

/-- The services a program can ask for. -/
structure Host (σ : Type) where
  /-- Creates a child of a process, with a priority and a name, and gives its identity. -/
  spawn (parent priority : Nat) (name : List UInt8) : HostM σ Nat
  /-- Gives a process its program. -/
  bind (target : Nat) (image : Image) : HostM σ Unit
  /-- Hands a process to a worker. -/
  dispatch (target : Nat) : HostM σ Unit
  /-- Shows a text that a process printed. -/
  print (origin : Nat) (text : String) : HostM σ Unit

end BytecodeKernel
