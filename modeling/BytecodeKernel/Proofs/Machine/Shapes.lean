import BytecodeKernel.Proofs.Machine.Runs
/-!
The shape of a stack: what its record says wherever the operands are in the arena. Of all that a
program does, a push and a pop move the top by one slot and a return closes a frame; a resize only
moves the operands. What these keep is kept by every run, whatever the heap and the host do.
-/

namespace BytecodeKernel

namespace Stack

/-- A predicate of stacks that does not depend on the region of the operands, and is kept where a
slot is taken or given back and where a frame is left. -/
structure IsShape (P : Stack → Prop) : Prop where
  moved : ∀ t base size, P t → P { t with base, size }
  pushed : ∀ t, P t → P { t with top := t.top + slotSize }
  popped : ∀ t, slotSize ≤ t.top → P t → P { t with top := t.top - slotSize }
  returned : ∀ t, P t → P { t with depth := t.depth - 1 }

theorem preserves_within {P : Stack × Arena → Prop} (region offset : Nat) :
    Preserves P (within region offset) :=
  (hoare_within region offset fun _ ht => ht).weaken (fun _ ht => ht) (fun _ _ ht => ht.1)
    fun _ ht => ht

section Record

variable {α : Type} {P : Stack → Prop}

/-- The arena may change as it will, since the record of the stack does not. -/
theorem preserves_onArena (f : Arena → Except MemoryError (α × Arena)) :
    Preserves (fun t : Stack × Arena => P t.1) (TenantM.onArena Fault.memory f) :=
  TenantM.hoare_onArena (fun _ _ _ _ ht _ => ht) fun _ _ _ ht _ => ht

theorem preserves_peek_record : Preserves (fun t : Stack × Arena => P t.1) peek := by
  refine .bind TenantM.preserves_self fun s => .optional (.throw _) ?_
  exact .bind (preserves_within _ _) fun addr => TenantM.preserves_ask _ _

theorem preserves_localSlot (index : Nat) :
    Preserves (fun t : Stack × Arena => P t.1) (localSlot index) := by
  refine .optional (.throw _) (.bind TenantM.preserves_self fun s => ?_)
  exact .optional (.throw _) (preserves_frameSlot _ _)

theorem preserves_getLocal_record (index : Nat) :
    Preserves (fun t : Stack × Arena => P t.1) (getLocal index) :=
  .bind (preserves_localSlot index) fun _ => TenantM.preserves_ask _ _

theorem preserves_setLocal_record (index : Nat) (v : Int64) :
    Preserves (fun t : Stack × Arena => P t.1) (setLocal index v) :=
  .bind (preserves_localSlot index) fun _ => preserves_onArena _

end Record

namespace IsShape

variable {P : Stack → Prop} (h : IsShape P)
include h

theorem resize (size : Nat) : Preserves (fun t : Stack × Arena => P t.1) (resize size) := by
  refine .bind TenantM.preserves_self fun s => .optional (preserves_onArena _) ?_
  refine .bind (preserves_onArena _) fun moved => .bind (preserves_onArena _) fun _ => ?_
  exact TenantM.hoare_modifySelf fun t a ht => h.moved t moved size ht

theorem attempt_resize (size : Nat) :
    Preserves (fun t : Stack × Arena => P t.1) (TenantM.attempt (Stack.resize size)) :=
  TenantM.hoare_attempt (h.resize size)

theorem push (v : Int64) : Preserves (fun t : Stack × Arena => P t.1) (push v) := by
  refine .bind TenantM.preserves_self fun s => .optional (h.resize _) ?_
  -- The top that is written back is the one that was looked at.
  refine Hoare.bind TenantM.hoare_self fun s => ?_
  refine Hoare.bind (hoare_within _ _ fun t ht => ht.1) fun addr => ?_
  refine Hoare.bind (Q := fun _ t => P t.1 ∧ t.1 = s)
    (TenantM.hoare_updateArena (fun _ _ _ ht _ => ht.1) fun _ _ _ ht _ => ht.1.1) fun _ => ?_
  refine Hoare.bind (Q := fun _ t => P t.1) (TenantM.hoare_modifySelf ?_) fun _ => ?_
  · rintro t a ⟨ht, rfl⟩
    exact h.pushed t ht
  · refine Preserves.bind TenantM.preserves_self fun t => ?_
    exact Preserves.ite (h.attempt_resize _) (.pure _)

theorem pop : Preserves (fun t : Stack × Arena => P t.1) pop := by
  refine Hoare.bind TenantM.hoare_self fun s => ?_
  apply Hoare.optional (M := fun t : Stack × Arena => (P t.1 ∧ t.1 = s) ∧ slotSize ≤ s.top)
  · exact fun _ => Hoare.throw fun t ht => ht.1
  · exact fun hroom _ ht => ⟨ht, Nat.not_lt.1 hroom⟩
  refine Hoare.bind (Q := fun _ t => P t.1) (TenantM.hoare_modifySelf ?_) fun _ => ?_
  · rintro t a ⟨⟨ht, rfl⟩, hroom⟩
    exact h.popped t hroom ht
  refine Preserves.bind TenantM.preserves_self fun t => ?_
  refine .bind (preserves_within _ _) fun addr => .bind (TenantM.preserves_ask _ _) fun v => ?_
  exact .optional (h.attempt_resize _) (.pure v)

theorem popFrame : Preserves (fun t : Stack × Arena => P t.1) popFrame := by
  refine .bind preserves_peekFrame fun cursor => ?_
  exact .bind (TenantM.hoare_modifySelf fun t a ht => h.returned t ht) fun _ => .pure _

end IsShape

end Stack

namespace Runner

variable {σ : Type}

/-- Nothing but the stack is on the stack. -/
theorem keeps_shape (r : Runner σ) {P : Stack → Prop} (h : Stack.IsShape P) :
    r.Keeps fun m => P m.stack := by
  have honStack {α : Type} {x : StackM α} (hx : Preserves (fun t : Stack × Arena => P t.1) x) :
      Preserves (fun m : Machine σ => P m.stack) (Exec.onStack x) := by
    refine .of_reached fun m hm => ?_
    rw [Exec.reached_onStack]
    exact hx.reached (s := (m.stack, m.arena)) hm
  have honHeap {α : Type} (x : HeapM α) :
      Preserves (fun m : Machine σ => P m.stack) (Exec.onHeap x) :=
    .of_reached fun m hm => by rwa [Exec.reached_onHeap]
  have honHost {α : Type} (x : HostM σ α) :
      Preserves (fun m : Machine σ => P m.stack) (Exec.onHost x) :=
    .of_reached fun m hm => by rwa [Exec.reached_onHost]
  exact ⟨fun _ _ hm => hm, fun v => honStack (h.push v), honStack h.pop, honStack h.popFrame,
    fun _ => honHeap _, fun _ _ _ => honHeap _, fun _ _ => honHost _, fun _ _ => honHost _,
    fun _ => honHost _, fun _ => honHost _⟩

end Runner

end BytecodeKernel
