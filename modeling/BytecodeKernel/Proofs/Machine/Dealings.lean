import BytecodeKernel.Proofs.Machine.Isolation
/-!
Dealings with one object of a session. Somebody uses the object again and again, and in between
anything may happen in the arena that does not touch it. To show that the object behaves as some
simpler thing does, it is enough to look at one use, and at one step of the others.
-/

namespace BytecodeKernel

/-- One use of an object, what came of it, and the arena on either side. -/
structure Used (υ ρ : Type) where
  use : υ
  result : ρ
  before : Arena
  after : Arena

/-- A simpler thing follows a log, one entry after the other. -/
inductive Along {σ β : Type} (step : σ → β → σ → Prop) : σ → List β → σ → Prop where
  | nil (x : σ) : Along step x [] x
  | cons {x y z : σ} {b : β} {log : List β} :
      step x b y → Along step y log z → Along step x (b :: log) z

theorem Along.exists_of_append {σ β : Type} {step : σ → β → σ → Prop} {x z : σ} {log more : List β}
    (h : Along step x (log ++ more) z) : ∃ y, Along step x log y ∧ Along step y more z := by
  induction log generalizing x with
  | nil => exact ⟨x, .nil x, h⟩
  | cons b rest ih =>
    cases h with
    | cons hstep hrest =>
      obtain ⟨y, hfront, hback⟩ := ih hrest
      exact ⟨y, .cons hstep hfront, hback⟩

namespace Session

variable {υ ρ σ : Type}

/-- From one session to another by uses of one object, which are logged, and by steps that do not
touch it, which are not. -/
inductive Dealings (n : Name) (act : Workspace → υ → Option (ρ × Workspace)) :
    Session → List (Used υ ρ) → Session → Prop where
  | done (s : Session) : Dealings n act s [] s
  | use {s t : Session} {use : υ} {result : ρ} {w : Workspace} {log : List (Used υ ρ)} :
      act s.workspace use = some (result, w) → Dealings n act (s.become w) log t →
      Dealings n act s (⟨use, result, s.arena, w.arena⟩ :: log) t
  | others {T : Set Name} {s t u : Session} {log : List (Used υ ρ)} :
      n ∉ T → Reaches T s t → Dealings n act t log u → Dealings n act s log u

variable {n : Name} {act : Workspace → υ → Option (ρ × Workspace)} {s t u : Session}
  {log more : List (Used υ ρ)}

theorem Dealings.append (h : Dealings n act s log t) (hmore : Dealings n act t more u) :
    Dealings n act s (log ++ more) u := by
  induction h with
  | done s => exact hmore
  | use huse _ ih => exact .use huse (ih hmore)
  | others hn hreaches _ ih => exact .others hn hreaches (ih hmore)

/-- Uses an object with nothing in between, for as long as it is there. -/
def deal (act : Workspace → υ → Option (ρ × Workspace)) :
    List υ → Session → List (Used υ ρ) × Session
  | [], s => ([], s)
  | use :: rest, s =>
    match act s.workspace use with
    | none => ([], s)
    | some (result, w) =>
      let (log, t) := deal act rest (s.become w)
      (⟨use, result, s.arena, w.arena⟩ :: log, t)

theorem dealings_deal (n : Name) (act : Workspace → υ → Option (ρ × Workspace)) (uses : List υ)
    (s : Session) : Dealings n act s (deal act uses s).1 (deal act uses s).2 := by
  induction uses generalizing s with
  | nil => exact .done s
  | cons use rest ih =>
    rw [deal]
    cases huse : act s.workspace use with
    | none => exact .done s
    | some answer => exact .use huse (ih _)

/-- An object that could be made is there afterwards. -/
theorem exists_become_eq_settle (s : Session) {x : Except MemoryError Workspace} (h : x.isOk) :
    ∃ w, x = .ok w ∧ s.become w = s.settle x := by
  cases x with
  | ok w => exact ⟨w, rfl, rfl⟩
  | error e => contradiction

/-- What one use and one step of the others keep, all dealings keep. -/
theorem Dealings.along {Shows : σ → Session → Prop} {step : σ → Used υ ρ → σ → Prop}
    (huse : ∀ x s use result w, s.Settled [] → Shows x s →
      act s.workspace use = some (result, w) → Steps Set.univ [] s (s.become w) ∧
        ∃ y, step x ⟨use, result, s.arena, w.arena⟩ y ∧ Shows y (s.become w))
    (hothers : ∀ x s t T, s.Settled [] → n ∉ T → s.Untouched T t → Shows x s → Shows x t)
    (h : Dealings n act s log t) (hs : s.Settled []) {x : σ} (hx : Shows x s) :
    Steps Set.univ [] s t ∧ ∃ y, Along step x log y ∧ Shows y t := by
  induction h generalizing x with
  | done s => exact ⟨hs.steps_refl, x, .nil x, hx⟩
  | use haction _ ih =>
    obtain ⟨hsteps, y, hstep, hy⟩ := huse x _ _ _ _ hs hx haction
    obtain ⟨hend, z, hrest, hz⟩ := ih hsteps.1 hy
    exact ⟨hsteps.trans hend, z, .cons hstep hrest, hz⟩
  | others hn hreaches _ ih =>
    have hsteps := hreaches.steps [] hs
    obtain ⟨hend, z, hrest, hz⟩ := ih hsteps.1 (hothers x _ _ _ hs hn hsteps.untouched hx)
    exact ⟨(hsteps.mono (Set.subset_univ _)).trans hend, z, hrest, hz⟩

end Session

end BytecodeKernel
