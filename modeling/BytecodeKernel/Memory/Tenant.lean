import BytecodeKernel.Memory.Arena
/-!
Tenants: objects such as heaps and stacks that own regions of the arena. What a tenant does may
change both, and the state reached stands even when the action fails.
-/

namespace BytecodeKernel

/-- An action on a tenant and the arena it lives in. -/
abbrev TenantM (ε τ : Type) := EStateM ε (τ × Arena)

namespace TenantM

variable {ε τ α : Type}

/-- The tenant as it stands. -/
def self : TenantM ε τ τ :=
  fun s => .ok s.1 s

def modifySelf (f : τ → τ) : TenantM ε τ Unit :=
  fun s => .ok () (f s.1, s.2)

/-- Asks the arena, which does not change. -/
def ask (wrap : MemoryError → ε) (f : Arena → Except MemoryError α) : TenantM ε τ α :=
  fun s =>
    match f s.2 with
    | .ok x => .ok x s
    | .error e => .error (wrap e) s

/-- Changes the arena, or fails and leaves it as it was. -/
def onArena (wrap : MemoryError → ε) (f : Arena → Except MemoryError (α × Arena)) :
    TenantM ε τ α :=
  fun s =>
    match f s.2 with
    | .ok (x, a) => .ok x (s.1, a)
    | .error e => .error (wrap e) s

/-- Changes the arena by an operation without a result. -/
def updateArena (wrap : MemoryError → ε) (f : Arena → Except MemoryError Arena) :
    TenantM ε τ Unit :=
  onArena wrap fun a => (f a).map ((), ·)

/-- Tries an action and goes on from the state it reached, whether it succeeded or not. -/
def attempt (x : TenantM ε τ Unit) : TenantM ε τ Unit :=
  fun s =>
    match x s with
    | .ok _ s => .ok () s
    | .error _ s => .ok () s

end TenantM

end BytecodeKernel
