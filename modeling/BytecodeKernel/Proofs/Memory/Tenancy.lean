import BytecodeKernel.Memory.Heap
import BytecodeKernel.Proofs.Memory.Ownership
/-!
Actions with a state that can fail, by what holds before and after. As what was changed stands even
on failure, a judgment names both ends. From it comes what a tenant keeps to: whatever a heap does,
the live blocks are its own region and those of others, and the others' bytes are spared.
-/

namespace BytecodeKernel

variable {ε σ α β : Type}

theorem run_get (s : σ) : (get : EStateM ε σ σ) s = .ok s s := rfl

theorem run_throw (e : ε) (s : σ) : (throw e : EStateM ε σ α) s = .error e s := rfl

/-- From a state with `P` the action ends in `Q` if it succeeds and in `E` if it fails. -/
def Hoare (P : σ → Prop) (x : EStateM ε σ α) (Q : α → σ → Prop) (E : σ → Prop) : Prop :=
  ∀ s, P s → match x s with
    | .ok v s => Q v s
    | .error _ s => E s

/-- The action keeps `P`, also where it fails. -/
def Preserves (P : σ → Prop) (x : EStateM ε σ α) : Prop :=
  Hoare P x (fun _ => P) P

namespace Hoare

variable {P P' E E' : σ → Prop} {Q Q' : α → σ → Prop} {R : β → σ → Prop}

theorem pure {v : α} (h : ∀ s, P s → Q v s) : Hoare P (pure v : EStateM ε σ α) Q E :=
  fun s hs => h s hs

theorem throw {e : ε} (h : ∀ s, P s → E s) : Hoare P (throw e : EStateM ε σ α) Q E :=
  fun s hs => h s hs

theorem bind {x : EStateM ε σ α} {f : α → EStateM ε σ β} (hx : Hoare P x Q E)
    (hf : ∀ v, Hoare (Q v) (f v) R E) : Hoare P (x >>= f) R E := by
  intro s hs
  have hmid := hx s hs
  show match EStateM.bind x f s with | .ok v s => R v s | .error _ s => E s
  rw [EStateM.bind]
  cases hres : x s with
  | error e t => simpa [hres] using hmid
  | ok v t =>
    rw [hres] at hmid
    exact hf v t hmid

theorem weaken {x : EStateM ε σ α} (hx : Hoare P x Q E) (hpre : ∀ s, P' s → P s)
    (hpost : ∀ v s, Q v s → Q' v s) (herror : ∀ s, E s → E' s) : Hoare P' x Q' E' := by
  intro s hs
  have hend := hx s (hpre s hs)
  cases hres : x s with
  | error e t =>
    rw [hres] at hend
    exact herror t hend
  | ok v t =>
    rw [hres] at hend
    exact hpost v t hend

theorem pre {x : EStateM ε σ α} (hx : Hoare P x Q E) (hpre : ∀ s, P' s → P s) : Hoare P' x Q E :=
  hx.weaken hpre (fun _ _ h => h) fun _ h => h

/-- Facts that do not speak of the state may be taken from it beforehand. -/
theorem of_pre {x : EStateM ε σ α} (h : ∀ s, P s → Hoare P x Q E) : Hoare P x Q E :=
  fun s hs => h s hs s hs

/-- One state before the action at a time. -/
theorem of_each {x : EStateM ε σ α} (h : ∀ s, P s → Hoare (· = s) x Q E) : Hoare P x Q E :=
  fun s hs => h s hs s rfl

theorem ite {c : Prop} [Decidable c] {x y : EStateM ε σ α} (hx : c → Hoare P x Q E)
    (hy : ¬c → Hoare P y Q E) : Hoare P (if c then x else y) Q E := by
  split
  · exact hx ‹_›
  · exact hy ‹_›

/-- A step that is taken only in some states, with the same continuation in all. -/
theorem optional {c : Prop} [Decidable c] {x : EStateM ε σ α} {y : EStateM ε σ β} {M : σ → Prop}
    (hx : c → Hoare P x (fun _ => M) E) (hskip : ¬c → ∀ s, P s → M s) (hy : Hoare M y R E) :
    Hoare P (if c then x >>= fun _ => y else y) R E :=
  ite (fun hc => bind (hx hc) fun _ => hy) fun hc => hy.pre (hskip hc)

/-- A handler goes on from the state in which the action failed. -/
theorem tryCatch {x : EStateM ε σ α} {handle : ε → EStateM ε σ α} (hx : Hoare P x Q E)
    (hhandle : ∀ e, Hoare E (handle e) Q E') : Hoare P (MonadExcept.tryCatch x handle) Q E' := by
  intro s hs
  have hend := hx s hs
  simp only [MonadExcept.tryCatch, tryCatchThe, MonadExceptOf.tryCatch, EStateM.tryCatch]
  cases hres : x s with
  | ok v t => simpa only [hres] using hend
  | error e t =>
    simp only [hres] at hend
    exact hhandle e t hend

end Hoare

namespace Preserves

variable {P : σ → Prop}

theorem pure (v : α) : Preserves P (pure v : EStateM ε σ α) :=
  Hoare.pure fun _ h => h

theorem throw (e : ε) : Preserves P (throw e : EStateM ε σ α) :=
  Hoare.throw fun _ h => h

theorem bind {x : EStateM ε σ α} {f : α → EStateM ε σ β} (hx : Preserves P x)
    (hf : ∀ v, Preserves P (f v)) : Preserves P (x >>= f) :=
  Hoare.bind hx hf

theorem get : Preserves P (get : EStateM ε σ σ) :=
  fun _ h => h

theorem ite {c : Prop} [Decidable c] {x y : EStateM ε σ α} (hx : Preserves P x)
    (hy : Preserves P y) : Preserves P (if c then x else y) :=
  Hoare.ite (fun _ => hx) fun _ => hy

theorem optional {c : Prop} [Decidable c] {x : EStateM ε σ α} {y : EStateM ε σ β}
    (hx : Preserves P x) (hy : Preserves P y) :
    Preserves P (if c then x >>= fun _ => y else y) :=
  Hoare.optional (fun _ => hx) (fun _ _ h => h) hy

/-- To change errors changes no state. -/
theorem adaptExcept {ε' : Type} {f : ε → ε'} {x : EStateM ε σ α} (hx : Preserves P x) :
    Preserves P (EStateM.adaptExcept f x) := by
  intro s hs
  have hend := hx s hs
  rw [EStateM.adaptExcept]
  cases hres : x s with
  | ok v t => simpa only [hres] using hend
  | error e t => simpa only [hres] using hend

theorem tryCatch {x : EStateM ε σ α} {handle : ε → EStateM ε σ α} (hx : Preserves P x)
    (hhandle : ∀ e, Preserves P (handle e)) :
    Preserves P (MonadExcept.tryCatch x handle) :=
  Hoare.tryCatch hx hhandle

end Preserves

namespace TenantM

variable {τ : Type} {P E : τ × Arena → Prop}

theorem hoare_self : Hoare P (self : TenantM ε τ τ) (fun t s => P s ∧ s.1 = t) E :=
  fun _ h => ⟨h, rfl⟩

/-- Looking at a tenant that is known gives the known one. -/
theorem hoare_self_bind {t : τ} {f : τ → TenantM ε τ α} {Q : α → τ × Arena → Prop}
    (h : Hoare (fun s => P s ∧ s.1 = t) (f t) Q E) :
    Hoare (fun s => P s ∧ s.1 = t) (self >>= f) Q E := by
  rintro ⟨_, a⟩ ⟨hs, rfl⟩
  exact h _ ⟨hs, rfl⟩

theorem preserves_self : Preserves P (self : TenantM ε τ τ) :=
  fun _ h => h

theorem hoare_ask (wrap : MemoryError → ε) (f : Arena → Except MemoryError α)
    (herror : ∀ s, P s → E s) : Hoare P (ask wrap f : TenantM ε τ α) (fun _ => P) E := by
  intro s hs
  rw [ask]
  cases f s.2 with
  | error e => exact herror s hs
  | ok v => exact hs

theorem preserves_ask (wrap : MemoryError → ε) (f : Arena → Except MemoryError α) :
    Preserves P (ask wrap f : TenantM ε τ α) :=
  hoare_ask wrap f fun _ h => h

theorem hoare_attempt {x : TenantM ε τ Unit} {Q : τ × Arena → Prop}
    (hx : Hoare P x (fun _ => Q) Q) : Hoare P (attempt x) (fun _ => Q) E := by
  intro s hs
  have hend := hx s hs
  rw [attempt]
  cases hres : x s <;> simpa [hres] using hend

theorem hoare_onArena {wrap : MemoryError → ε} {f : Arena → Except MemoryError (α × Arena)}
    {Q : α → τ × Arena → Prop} (hok : ∀ t a v b, P (t, a) → f a = .ok (v, b) → Q v (t, b))
    (herror : ∀ t a e, P (t, a) → f a = .error e → E (t, a)) :
    Hoare P (onArena wrap f : TenantM ε τ α) Q E := by
  intro s hs
  rw [onArena]
  cases hres : f s.2 with
  | error e => exact herror s.1 s.2 e hs hres
  | ok result => exact hok s.1 s.2 result.1 result.2 hs hres

theorem hoare_updateArena {wrap : MemoryError → ε} {f : Arena → Except MemoryError Arena}
    {Q : τ × Arena → Prop} (hok : ∀ t a b, P (t, a) → f a = .ok b → Q (t, b))
    (herror : ∀ t a e, P (t, a) → f a = .error e → E (t, a)) :
    Hoare P (updateArena wrap f : TenantM ε τ Unit) (fun _ => Q) E := by
  refine hoare_onArena (fun t a v b hs hres => ?_) fun t a e hs hres => ?_
  · obtain ⟨c, hc, hpair⟩ := ok_of_map hres
    cases hpair
    exact hok t a b hs hc
  · cases hf : f a with
    | ok b => simp [hf, Except.map] at hres
    | error e' => exact herror t a e' hs hf

theorem hoare_modifySelf {f : τ → τ} {Q : τ × Arena → Prop} (h : ∀ t a, P (t, a) → Q (f t, a)) :
    Hoare P (modifySelf f : TenantM ε τ Unit) (fun _ => Q) E :=
  fun s hs => h s.1 s.2 hs

end TenantM

/-- The state that is reached, on success and on failure. -/
def reached : EStateM.Result ε σ α → σ
  | .ok _ s => s
  | .error _ s => s

theorem Preserves.reached {P : σ → Prop} {x : EStateM ε σ α} (hx : Preserves P x) {s : σ}
    (hs : P s) : P (reached (x s)) := by
  have hend := hx s hs
  cases hres : x s <;> simpa [hres, BytecodeKernel.reached] using hend

theorem Preserves.of_reached {P : σ → Prop} {x : EStateM ε σ α}
    (h : ∀ s, P s → P (BytecodeKernel.reached (x s))) : Preserves P x := by
  intro s hs
  have hend := h s hs
  cases hres : x s <;> simpa [hres, BytecodeKernel.reached] using hend

/-! ### Heaps -/

namespace Heap

def region (h : Heap) : Nat × Nat :=
  (h.base, h.size)

/-- The heap is at home beside regions of others, whose bytes are still those of `start`. -/
structure Home (others : List (Nat × Nat)) (start : Arena) (s : Heap × Arena) : Prop where
  owns : s.2.Owns (s.1.region :: others)
  spares : Arena.Spares others start s.2

variable {others : List (Nat × Nat)} {start : Arena}

theorem Home.withBlocks {h : Heap} {a : Arena} (hs : Home others start (h, a)) (blocks : Blocks) :
    Home others start ({ h with blocks }, a) :=
  ⟨hs.owns, hs.spares⟩

theorem Home.withStore {h : Heap} {a : Arena} (hs : Home others start (h, a)) {addr : Nat}
    {bytes : List UInt8} (hle : h.base ≤ addr) (hend : addr + bytes.length ≤ h.base + h.size) :
    Home others start (h, { a with store := a.store.write addr bytes }) :=
  ⟨hs.owns.withStore _, hs.spares.trans (hs.owns.spares_write hle hend)⟩

/-- Whatever is located lies in the region. -/
theorem locate?_eq_some {h : Heap} {addr length phys : Nat}
    (hlocate : h.locate? addr length = some phys) :
    h.base ≤ phys ∧ phys + length ≤ h.base + h.size := by
  unfold locate? Address.add? at hlocate
  split at hlocate
  · contradiction
  · split at hlocate
    · obtain rfl : h.base + (addr - 1) = phys := by simpa using hlocate
      omega
    · contradiction

theorem preserves_reserve (size : Nat) : Preserves (Home others start) (reserve size) := by
  rintro ⟨h, a⟩ hs
  rw [reserve]
  simp only
  by_cases hsmall : size ≤ h.blocks.largestFree ∨ addressLimit ≤ h.size + size
  · rw [if_pos hsmall]
    exact hs
  · rw [if_neg hsmall]
    obtain ⟨howns, hstore, hlimit⟩ := hs.owns.reserveOrKeep (h.size + size)
    have hroom : Arena.Spares others start (a.reserveOrKeep (h.size + size)) :=
      hs.spares.trans (Arena.spares_of_store_eq hlimit hstore _)
    cases hmove : (a.reserveOrKeep (h.size + size)).tryReallocate h.base (h.size + size) with
    | error e => exact ⟨howns, hroom⟩
    | ok result =>
      obtain ⟨freed, hfree, hfreed, hspares⟩ := howns.relocate hmove
      have hdiscard : result.2.discard h.base = freed := by
        rw [Arena.discard, hfree]
      exact ⟨hdiscard ▸ hfreed, hdiscard ▸ hroom.trans hspares⟩

theorem preserves_malloc (size : Nat) : Preserves (Home others start) (malloc size) := by
  refine .bind (preserves_reserve size) fun _ => .bind TenantM.preserves_self fun h => ?_
  split
  · refine .bind (TenantM.hoare_modifySelf fun h a hs => hs.withBlocks _) fun _ => .pure _
  · exact .throw _

theorem preserves_calloc (size length : Nat) :
    Preserves (Home others start) (calloc size length) := by
  rw [calloc]
  apply Preserves.optional (Preserves.throw _)
  refine .bind (preserves_malloc size) fun addr => ?_
  refine Hoare.bind TenantM.hoare_self fun h => ?_
  split
  · -- The region did not move between looking at it and writing to it.
    rename_i phys hlocate
    have hbounds := locate?_eq_some hlocate
    refine Hoare.bind (TenantM.hoare_updateArena (Q := Home others start) ?_
      fun _ _ _ hs _ => hs.1) fun _ => Preserves.pure _
    rintro t a b ⟨hs, rfl⟩ hwrite
    obtain ⟨-, rfl⟩ := Arena.write_eq_ok hwrite
    apply hs.withStore hbounds.1
    rw [List.length_replicate]
    exact hbounds.2
  · exact Hoare.pure fun s hs => hs.1

theorem preserves_free (addr : Nat) : Preserves (Home others start) (free addr) := by
  refine .bind TenantM.preserves_self fun h => ?_
  split
  · exact TenantM.hoare_modifySelf fun h a hs => hs.withBlocks _
  · exact .throw _

theorem Home.write {h : Heap} {a : Arena} (hs : Home others start (h, a)) (addr : Nat)
    (bytes : List UInt8) : Home others start (h, h.write a addr bytes) := by
  rw [Heap.write]
  split
  · exact hs
  · rename_i phys hlocate
    obtain ⟨hle, hend⟩ := locate?_eq_some hlocate
    split
    · rename_i after hwrite
      obtain ⟨-, rfl⟩ := Arena.write_eq_ok hwrite
      exact hs.withStore hle hend
    · exact hs

theorem Home.copyIn {h : Heap} {a after : Arena} (hs : Home others start (h, a))
    {dst src length : Nat} (hcopy : h.copyIn a dst src length = .ok after) :
    Home others start (h, after) := by
  unfold Heap.copyIn at hcopy
  cases hlocate : h.locate? dst length with
  | none => simp [hlocate] at hcopy
  | some phys =>
    obtain ⟨hle, hend⟩ := locate?_eq_some hlocate
    rw [hlocate] at hcopy
    obtain ⟨-, -, rfl⟩ := Arena.copy_eq_ok hcopy
    apply hs.withStore hle
    rw [ByteStore.length_read]
    exact hend

theorem home_of_create {size : Nat} {a after : Arena} {h : Heap} (ha : a.Owns others)
    (hcreate : create size a = .ok (h, after)) : Home others a (h, after) := by
  obtain ⟨⟨base, fresh⟩, hallocate, hpair⟩ := ok_of_bind hcreate
  cases hpair
  obtain ⟨howns, hstore, hlimit⟩ := ha.allocate hallocate
  exact ⟨howns, Arena.spares_of_store_eq hlimit hstore _⟩

theorem Home.release {h : Heap} {a : Arena} (hs : Home others start (h, a)) :
    (h.release a).Owns others ∧ Arena.Spares others start (h.release a) := by
  obtain ⟨howns, hstore, hlimit⟩ := hs.owns.discard
  exact ⟨howns, hs.spares.trans (Arena.spares_of_store_eq hlimit hstore _)⟩

theorem preserves_copyIn (dst src length : Nat) :
    Preserves (Home others start) (do
      let h ← TenantM.self
      TenantM.updateArena id fun a => h.copyIn a dst src length) := by
  refine Hoare.bind TenantM.hoare_self fun h => ?_
  refine TenantM.hoare_updateArena ?_ fun _ _ _ hs _ => hs.1
  rintro t a b ⟨hs, rfl⟩ hcopy
  exact hs.copyIn hcopy

/-- What the owner of a heap can do that might change it or its bytes. -/
inductive Call where
  | malloc (size : Nat)
  | calloc (size length : Nat)
  | free (addr : Nat)
  | write (addr : Nat) (bytes : List UInt8)
  | setSigned (width addr : Nat) (v : Int)
  | copyIn (dst src length : Nat)

def Call.action : Call → HeapM Unit
  | malloc size => do let _ ← Heap.malloc size
  | calloc size length => do let _ ← Heap.calloc size length
  | free addr => Heap.free addr
  | write addr bytes => do
    let h ← TenantM.self
    TenantM.updateArena id fun a => .ok (h.write a addr bytes)
  | setSigned width addr v => do
    let h ← TenantM.self
    TenantM.updateArena id fun a => .ok (h.setSigned a width addr v)
  | copyIn dst src length => do
    let h ← TenantM.self
    TenantM.updateArena id fun a => h.copyIn a dst src length

theorem preserves_write (addr : Nat) (bytes : List UInt8) :
    Preserves (Home others start) (do
      let h ← TenantM.self
      TenantM.updateArena id fun a => .ok (h.write a addr bytes)) := by
  refine Hoare.bind TenantM.hoare_self fun h => ?_
  refine TenantM.hoare_updateArena ?_ fun _ _ _ hs _ => hs.1
  rintro t a b ⟨hs, rfl⟩ hwrite
  cases hwrite
  exact hs.write addr bytes

theorem preserves_action (call : Call) : Preserves (Home others start) call.action := by
  cases call with
  | malloc size => exact .bind (preserves_malloc size) fun _ => .pure _
  | calloc size length => exact .bind (preserves_calloc size length) fun _ => .pure _
  | free addr => exact preserves_free addr
  | write addr bytes => exact preserves_write addr bytes
  | setSigned width addr v => exact preserves_write addr _
  | copyIn dst src length => exact preserves_copyIn dst src length

end Heap

end BytecodeKernel
