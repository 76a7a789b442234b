import BytecodeKernel.Machine.Host
/-!
A host that grants requests and keeps a list of them, so that a program can be run on its own.
-/

namespace BytecodeKernel

/-- A request that was granted. -/
inductive Request where
  | spawn (parent priority : Nat) (name : List UInt8) (child : Nat)
  | bind (target entry : Nat)
  | dispatch (target : Nat)
  | print (origin : Nat) (text : String)
deriving DecidableEq

structure Recorder where
  /-- The identity of the next child. -/
  nextChild : Nat
  /-- The number of children that may still be created. -/
  childrenLeft : Nat
  /-- The requests since the list was last emptied, in order. -/
  requests : List Request := []

namespace Recorder

def note (request : Request) : HostM Recorder Unit :=
  TenantM.modifySelf fun r => { r with requests := r.requests ++ [request] }

/-- Creates a child, or refuses when none is left, with the reason given. -/
def spawn (refusal : String) (parent priority : Nat) (name : List UInt8) : HostM Recorder Nat :=
  fun (r, arena) =>
    if r.childrenLeft = 0 then .error (.host refusal) (r, arena)
    else .ok r.nextChild
      ({ nextChild := r.nextChild + 1
         childrenLeft := r.childrenLeft - 1
         requests := r.requests ++ [.spawn parent priority name r.nextChild] }, arena)

def host (refusal : String) : Host Recorder where
  spawn := spawn refusal
  bind target image := note (.bind target image.entry)
  dispatch target := note (.dispatch target)
  print origin text := note (.print origin text)

end Recorder

end BytecodeKernel
