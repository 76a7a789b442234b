import BytecodeKernel.Proofs.Memory.Tenancy
/-!
Actions followed from one state. Where `Hoare` says what holds before and after from all states of a
kind, `Ends` says it of the end that an action comes to from the state at hand, and of the fault
that it ends in if it does. What an allocation can fail with is a shortage, and nothing else.
-/

namespace BytecodeKernel

variable {ε σ α β : Type}

/-- An end that succeeded is in `Q`, and one that failed is in `E`. -/
def Ends (x : EStateM.Result ε σ α) (Q : α → σ → Prop) (E : ε → σ → Prop) : Prop :=
  match x with
  | .ok v s => Q v s
  | .error e s => E e s

namespace Ends

variable {Q Q' : α → σ → Prop} {R : β → σ → Prop} {E E' : ε → σ → Prop} {s : σ}

theorem bind {x : EStateM ε σ α} {f : α → EStateM ε σ β} (hx : Ends (x s) Q E)
    (hf : ∀ v t, Q v t → Ends (f v t) R E) : Ends ((x >>= f) s) R E := by
  show Ends (EStateM.bind x f s) R E
  rw [EStateM.bind]
  cases hres : x s with
  | ok v t =>
    rw [hres] at hx
    exact hf v t hx
  | error e t =>
    rw [hres] at hx
    exact hx

/-- A step whose end is known. -/
theorem of_ok {x : EStateM ε σ α} {f : α → EStateM ε σ β} {v : α} {t : σ} (hx : x s = .ok v t)
    (h : Ends (f v t) R E) : Ends ((x >>= f) s) R E := by
  show Ends (EStateM.bind x f s) R E
  rwa [EStateM.bind, hx]

theorem weaken {x : EStateM.Result ε σ α} (hx : Ends x Q E) (hQ : ∀ v t, Q v t → Q' v t)
    (hE : ∀ e t, E e t → E' e t) : Ends x Q' E' := by
  cases x with
  | ok v t => exact hQ v t hx
  | error e t => exact hE e t hx

/-- A step that is taken only in some states, with the same continuation in all. -/
theorem optional {c : Prop} [Decidable c] {x : EStateM ε σ α} {y : EStateM ε σ β} {M : σ → Prop}
    (hx : c → Ends (x s) (fun _ => M) E) (hskip : ¬ c → M s) (hy : ∀ t, M t → Ends (y t) R E) :
    Ends ((if c then x >>= fun _ => y else y) s) R E := by
  split
  · exact bind (hx ‹_›) fun _ t ht => hy t ht
  · exact hy s (hskip ‹_›)

end Ends

namespace TenantM

variable {τ : Type} {t : τ} {a : Arena} {Q : α → τ × Arena → Prop} {E : ε → τ × Arena → Prop}

theorem ends_self {f : τ → TenantM ε τ α} (h : Ends (f t (t, a)) Q E) :
    Ends ((self >>= f) (t, a)) Q E :=
  h

theorem ends_modifySelf {f : τ → τ} {Q : Unit → τ × Arena → Prop} (h : Q () (f t, a)) :
    Ends (modifySelf f (t, a) : EStateM.Result ε (τ × Arena) Unit) Q E :=
  h

theorem ends_onArena {wrap : MemoryError → ε} {f : Arena → Except MemoryError (α × Arena)}
    (hok : ∀ v b, f a = .ok (v, b) → Q v (t, b))
    (herror : ∀ e, f a = .error e → E (wrap e) (t, a)) :
    Ends (onArena wrap f (t, a)) Q E := by
  simp only [onArena]
  cases hres : f a with
  | ok result => exact hok result.1 result.2 hres
  | error e => exact herror e hres

theorem ask_of_ok {wrap : MemoryError → ε} {f : Arena → Except MemoryError α} {v : α}
    (hv : f a = .ok v) : ask wrap f (t, a) = .ok v (t, a) := by
  simp only [ask, hv]

theorem updateArena_of_ok {wrap : MemoryError → ε} {f : Arena → Except MemoryError Arena}
    {b : Arena} (hb : f a = .ok b) : updateArena wrap f (t, a) = .ok () (t, b) := by
  simp only [updateArena, onArena, hb]
  rfl

theorem ends_attempt {x : TenantM ε τ Unit} {P : τ × Arena → Prop}
    (hx : Ends (x (t, a)) (fun _ => P) fun _ => P) :
    Ends (attempt x (t, a)) (fun _ => P) E := by
  rw [attempt]
  cases hres : x (t, a) <;> simpa [hres, Ends] using hx

end TenantM

/-! ### Shortages -/

/-- There is no room for an allocation. -/
def MemoryError.IsShortage : MemoryError → Prop
  | .outOfMemory .. | .growthLimit .. => True
  | .zeroSize | .invalidLength .. | .invalidPointer _ | .outOfBounds .. => False

instance (e : MemoryError) : Decidable e.IsShortage := by
  cases e <;> simp only [MemoryError.IsShortage] <;> infer_instance

namespace Arena

variable {a : Arena} {size : Nat} {e : MemoryError}

theorem isShortage_of_allocate (hsize : size ≠ 0) (h : a.allocate size = .error e) :
    e.IsShortage := by
  simp only [allocate, Blocks.allocate, if_neg hsize] at h
  cases hcarve : Segment.carve? size a.blocks.segments with
  | some result => simp [hcarve, bind, Except.bind, pure, Except.pure] at h
  | none =>
    simp only [hcarve, bind, Except.bind, Except.error.injEq] at h
    exact h ▸ trivial

theorem isShortage_of_reserve (h : a.reserve size = .error e) : e.IsShortage := by
  rw [reserve] at h
  split at h
  · contradiction
  · split at h
    · cases h
      trivial
    · contradiction

/-- To move a live block fails only for want of memory. -/
theorem Sound.isShortage_of_tryReallocate {addr old : Nat} (h : a.Sound)
    (hold : (addr, old) ∈ a.blocks.liveBlocks) (hsize : size ≠ 0)
    (hmove : a.tryReallocate addr size = .error e) : e.IsShortage := by
  rw [h.tryReallocate_eq hold] at hmove
  cases hallocate : a.allocate size with
  | ok result => simp [hallocate, Except.map] at hmove
  | error e' =>
    simp only [hallocate, Except.map, Except.error.injEq] at hmove
    exact hmove ▸ isShortage_of_allocate hsize hallocate

end Arena

end BytecodeKernel
