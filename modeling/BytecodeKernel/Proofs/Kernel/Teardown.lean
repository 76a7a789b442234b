import BytecodeKernel.Proofs.Kernel.Requests
/-!
The end of a process and of all below it. The processes that end are those that can be reached from
it through the children of registered processes; they are halted, and all other records stay as they
are. The sweep is followed through its list: whoever has left the registry is either still on the
list or has had its children taken off the registry too.
-/

namespace BytecodeKernel

/-- The worker that owns a process. -/
def System.owner? (s : System) (id : Nat) : Option Nat :=
  s.workers.findIdx? fun w => decide (id ∈ w.owned)

namespace Kernel

variable {s t : System} {k : Kernel} {id : Nat} {pending : List Ending}

/-- The process, and what can be reached from it through the children of registered processes. -/
inductive Descends (s : System) (id : Nat) : Nat → Prop
  | self : Descends s id id
  | child {j c : Nat} (hj : Descends s id j) (hc : c ∈ s.childrenOf j)
      (hregistered : s.IsRegistered c) : Descends s id c

/-! ### Leaving the registry -/

theorem owner?_unregister {j : Nat} (hne : j ≠ id) :
    (s.unregister id).owner? j = s.owner? j := by
  rw [System.owner?, System.unregister, List.findIdx?_map, System.owner?]
  congr 1
  funext w
  simp [hne]

/-- Those that are found have left the registry and are hung, and nothing else has changed. -/
structure Detached (s : System) (ids found : List Nat) (t : System) : Prop where
  nodup : found.Nodup
  mem_found : ∀ j, j ∈ found ↔ j ∈ ids ∧ s.IsRegistered j
  registered : ∀ j, t.IsRegistered j ↔ s.IsRegistered j ∧ j ∉ ids
  hung : ∀ j ∈ found, t.process? j = (s.process? j).map (·.hang)
  others : ∀ j, j ∉ found → t.process? j = s.process? j ∧ t.owner? j = s.owner? j
  counter : t.nextId = s.nextId

namespace Detached

variable {ids rest found : List Nat} {j : Nat}

theorem registered_before (h : Detached s ids found t) (hj : t.IsRegistered j) :
    s.IsRegistered j :=
  ((h.registered j).1 hj).1

theorem left_of_mem (h : Detached s ids found t) (hj : j ∈ found) :
    s.IsRegistered j ∧ ¬ t.IsRegistered j := by
  obtain ⟨hmem, hregistered⟩ := (h.mem_found j).1 hj
  exact ⟨hregistered, fun ht => ((h.registered j).1 ht).2 hmem⟩

/-- Whoever is off the registry and was not found had left it before. -/
theorem left_before (h : Detached s ids found t) (hj : j ∉ found) (ht : ¬ t.IsRegistered j) :
    ¬ s.IsRegistered j := fun hs =>
  ht ((h.registered j).2 ⟨hs, fun hmem => hj ((h.mem_found j).2 ⟨hmem, hs⟩)⟩)

/-- One more is found. -/
theorem cons_found (h : Detached s rest found t) (hid : t.IsRegistered id) :
    Detached s (id :: rest) (id :: found) ((t.unregister id).modifyProcess id (·.hang)) := by
  obtain ⟨hold, hnew⟩ := (h.registered id).1 hid
  have hnotin : id ∉ found := fun hmem => hnew ((h.mem_found id).1 hmem).1
  refine ⟨List.nodup_cons.2 ⟨hnotin, h.nodup⟩, fun j => ?_, fun j => ?_, fun j hj => ?_,
    fun j hj => ?_, h.counter⟩
  · rw [List.mem_cons, List.mem_cons, h.mem_found j]
    constructor
    · rintro (rfl | ⟨hj, hregistered⟩)
      · exact ⟨.inl rfl, hold⟩
      · exact ⟨.inr hj, hregistered⟩
    · rintro ⟨rfl | hj, hregistered⟩
      · exact .inl rfl
      · exact .inr ⟨hj, hregistered⟩
  · show (t.unregister id).IsRegistered j ↔ _
    rw [System.isRegistered_unregister, h.registered j, List.mem_cons, not_or]
    tauto
  · rw [System.process?_modifyProcess]
    rcases List.mem_cons.1 hj with rfl | hj
    · rw [if_pos rfl]
      exact congrArg _ (h.others j hnotin).1
    · have hne : id ≠ j := fun heq => hnotin (heq ▸ hj)
      rw [if_neg hne]
      exact h.hung j hj
  · obtain ⟨hne, hj⟩ := not_or.1 (mt List.mem_cons.2 hj)
    rw [System.process?_modifyProcess, if_neg (Ne.symm hne)]
    exact ⟨(h.others j hj).1, (owner?_unregister hne).trans (h.others j hj).2⟩

/-- One more is not registered, or was found already. -/
theorem cons_skipped (h : Detached s rest found t) (hid : ¬ t.IsRegistered id) :
    Detached s (id :: rest) found t := by
  have hgone : ¬ (s.IsRegistered id ∧ id ∉ rest) := mt (h.registered id).2 hid
  refine ⟨h.nodup, fun j => ?_, fun j => ?_, h.hung, h.others, h.counter⟩
  · rw [h.mem_found j, List.mem_cons]
    constructor
    · rintro ⟨hj, hregistered⟩
      exact ⟨.inr hj, hregistered⟩
    · rintro ⟨rfl | hj, hregistered⟩
      · exact ⟨not_not.1 fun hj => hgone ⟨hregistered, hj⟩, hregistered⟩
      · exact ⟨hj, hregistered⟩
  · rw [h.registered j, List.mem_cons, not_or]
    constructor
    · rintro ⟨hregistered, hj⟩
      exact ⟨hregistered, fun heq => hgone (heq ▸ ⟨hregistered, hj⟩), hj⟩
    · rintro ⟨hregistered, -, hj⟩
      exact ⟨hregistered, hj⟩

end Detached

theorem detached_detach (s : System) (ids : List Nat) :
    Detached s ids (detach s ids).1 (detach s ids).2 := by
  induction ids with
  | nil =>
    exact ⟨.nil, by simp [detach], by simp [detach], by simp [detach], fun _ _ => ⟨rfl, rfl⟩, rfl⟩
  | cons id rest ih =>
    simp only [detach]
    split
    · rename_i hid
      exact ih.cons_found hid
    · rename_i hid
      exact ih.cons_skipped hid

/-! ### The sweep -/

/-- How far a sweep has come that began below a process of a system. Whoever has left the registry
is hung while it is on the list, and halted once it is done. -/
structure Unwinding (s : System) (id : Nat) (pending : List Ending) (t : System) : Prop where
  nodup : (pending.map Ending.process).Nodup
  root : s.IsRegistered id ∧ ¬ t.IsRegistered id
  left : ∀ j ∈ concerned pending, s.IsRegistered j ∧ ¬ t.IsRegistered j
  registered : ∀ j, t.IsRegistered j → s.IsRegistered j
  hung : ∀ j ∈ concerned pending, t.process? j = (s.process? j).map (·.hang)
  halted : ∀ j, j ∉ concerned pending → s.IsRegistered j → ¬ t.IsRegistered j →
    t.process? j = (s.process? j).map (·.halt)
  others : ∀ j, (s.IsRegistered j → t.IsRegistered j) →
    t.process? j = s.process? j ∧ t.owner? j = s.owner? j
  below : ∀ j, s.IsRegistered j → ¬ t.IsRegistered j → Descends s id j
  closed : ∀ j, s.IsRegistered j → ¬ t.IsRegistered j → .expand j ∉ pending →
    ∀ c ∈ s.childrenOf j, ¬ t.IsRegistered c
  counter : t.nextId = s.nextId

theorem mem_concerned {j : Nat} : j ∈ concerned pending ↔ j ∈ pending.map Ending.process := by
  rw [List.mem_map]
  rfl

theorem childrenOf_eq_of_map {f : Process → Process} (hf : ∀ p, (f p).children = p.children)
    {j : Nat} (h : t.process? j = (s.process? j).map f) : t.childrenOf j = s.childrenOf j := by
  rw [System.childrenOf, System.childrenOf, h, Option.map_map]
  congr 2
  funext p
  exact hf p

theorem childrenOf_modifyProcess {f : Process → Process} (hf : ∀ p, (f p).children = p.children)
    (j : Nat) : (s.modifyProcess id f).childrenOf j = s.childrenOf j := by
  by_cases hj : id = j
  · subst hj
    exact childrenOf_eq_of_map hf ((System.process?_modifyProcess _ _ _ _).trans (if_pos rfl))
  · rw [System.childrenOf, System.process?_modifyProcess, if_neg hj, System.childrenOf]

theorem Unwinding.childrenOf (h : Unwinding s id pending t) (j : Nat) :
    t.childrenOf j = s.childrenOf j := by
  by_cases hj : s.IsRegistered j ∧ ¬ t.IsRegistered j
  · by_cases hpending : j ∈ concerned pending
    · exact childrenOf_eq_of_map (f := (·.hang)) (fun _ => rfl) (h.hung j hpending)
    · exact childrenOf_eq_of_map (f := (·.halt)) (fun _ => rfl) (h.halted j hpending hj.1 hj.2)
  · have hsame := (h.others j fun hs => not_not.1 fun ht => hj ⟨hs, ht⟩).1
    rw [System.childrenOf, System.childrenOf, hsame]

theorem release_of_alive {p : Process} (hp : k.1.process? id = some p) (halive : p.halted = false) :
    (release id k).1 = k.1.modifyProcess id (·.halt) := by
  obtain ⟨s, a⟩ := k
  rw [release]
  simp only
  split
  · rename_i hnone
    exact absurd (hp.symm.trans hnone) (Option.some_ne_none p)
  · rename_i q hq
    obtain rfl : p = q := Option.some.inj (hp.symm.trans hq)
    rw [if_neg (by simp [halive])]

/-- A process on the list comes to its end. -/
theorem Unwinding.release {i : Nat} {rest : List Ending}
    (h : Unwinding s id (.release i :: rest) k.1)
    (halive : ∃ p, s.process? i = some p ∧ p.halted = false) :
    Unwinding s id rest (Kernel.release i k).1 := by
  have hfirst : i ∉ concerned rest := by
    rw [mem_concerned]
    exact (List.nodup_cons.1 h.nodup).1
  have hi := h.left i (head_mem_concerned _ _)
  obtain ⟨p, hp, hhalted⟩ := halive
  have hnow : k.1.process? i = some p.hang := by
    rw [h.hung i (head_mem_concerned _ _), hp]
    rfl
  rw [release_of_alive hnow hhalted]
  have hsame : ∀ j, j ≠ i → (k.1.modifyProcess i (·.halt)).process? j = k.1.process? j := by
    intro j hj
    rw [System.process?_modifyProcess, if_neg (Ne.symm hj)]
  refine ⟨(List.nodup_cons.1 h.nodup).2, h.root, ?_, h.registered, ?_, ?_, ?_, h.below, ?_,
    h.counter⟩
  · exact fun j hj => h.left j (mem_concerned_cons.2 (.inr hj))
  · intro j hj
    rw [hsame j fun heq => hfirst (heq ▸ hj)]
    exact h.hung j (mem_concerned_cons.2 (.inr hj))
  · intro j hj hs ht
    by_cases hji : j = i
    · subst hji
      rw [System.process?_modifyProcess, if_pos rfl, hnow, hp]
      rfl
    · rw [hsame j hji]
      exact h.halted j (fun hmem => (mem_concerned_cons.1 hmem).elim hji hj) hs ht
  · intro j hj
    have hji : j ≠ i := by
      rintro rfl
      exact hi.2 (hj hi.1)
    rw [hsame j hji]
    exact h.others j hj
  · intro j hs ht hmem
    exact h.closed j hs ht fun hcons => hmem ((List.mem_cons.1 hcons).resolve_left (by simp))

/-- The children of a process on the list leave the registry and are put on the list before it. -/
theorem Unwinding.expand {i : Nat} {rest : List Ending} (h : Unwinding s id (.expand i :: rest) t) :
    Unwinding s id ((detach t (t.childrenOf i)).1.map .expand ++ .release i :: rest)
      (detach t (t.childrenOf i)).2 := by
  have hdetached := detached_detach t (t.childrenOf i)
  generalize (detach t (t.childrenOf i)).1 = found at hdetached ⊢
  generalize (detach t (t.childrenOf i)).2 = u at hdetached ⊢
  have hi := h.left i (head_mem_concerned _ _)
  refine ⟨?_, ⟨h.root.1, fun hu => h.root.2 (hdetached.registered_before hu)⟩, ?_, ?_, ?_, ?_, ?_,
    ?_, ?_, hdetached.counter.trans h.counter⟩
  · rw [map_process_expand]
    refine List.nodup_append.2 ⟨hdetached.nodup, h.nodup, ?_⟩
    rintro j hj _ hmem rfl
    exact (h.left j (mem_concerned.2 hmem)).2 (hdetached.left_of_mem hj).1
  · intro j hj
    rcases mem_concerned_expanded.1 hj with hj | hj
    · obtain ⟨ht, hu⟩ := hdetached.left_of_mem hj
      exact ⟨h.registered j ht, hu⟩
    · obtain ⟨hs, ht⟩ := h.left j hj
      exact ⟨hs, fun hu => ht (hdetached.registered_before hu)⟩
  · exact fun j hj => h.registered j (hdetached.registered_before hj)
  · intro j hj
    by_cases hmem : j ∈ found
    · rw [hdetached.hung j hmem, (h.others j fun _ => (hdetached.left_of_mem hmem).1).1]
    · rw [(hdetached.others j hmem).1]
      exact h.hung j ((mem_concerned_expanded.1 hj).resolve_left hmem)
  · intro j hj hs hu
    obtain ⟨hmem, hconcerned⟩ := not_or.1 (mt mem_concerned_expanded.2 hj)
    rw [(hdetached.others j hmem).1]
    exact h.halted j hconcerned hs (hdetached.left_before hmem hu)
  · intro j hj
    have hmem : j ∉ found := fun hmem => by
      obtain ⟨ht, hu⟩ := hdetached.left_of_mem hmem
      exact hu (hj (h.registered j ht))
    obtain ⟨hrecord, howner⟩ := h.others j fun hs => hdetached.registered_before (hj hs)
    exact ⟨(hdetached.others j hmem).1.trans hrecord, (hdetached.others j hmem).2.trans howner⟩
  · intro j hs hu
    by_cases hmem : j ∈ found
    · have hchild := ((hdetached.mem_found j).1 hmem).1
      rw [h.childrenOf] at hchild
      exact .child (h.below i hi.1 hi.2) hchild hs
    · exact h.below j hs (hdetached.left_before hmem hu)
  · intro j hs hu hpending c hc hcu
    have hmem : j ∉ found := fun hmem =>
      hpending (List.mem_append_left _ (List.mem_map_of_mem hmem))
    obtain ⟨hct, hnochild⟩ := (hdetached.registered c).1 hcu
    by_cases hj : j = i
    · subst hj
      rw [h.childrenOf] at hnochild
      exact hnochild hc
    · refine h.closed j hs (hdetached.left_before hmem hu) (fun hcons => ?_) c hc hct
      rcases List.mem_cons.1 hcons with heq | hrest
      · exact hj (Ending.expand.inj heq)
      · exact hpending (List.mem_append_right _ (List.mem_cons_of_mem _ hrest))

/-! ### What has ended -/

/-- Those that are gone were registered, are not any more and are halted. All others are as they
were. -/
structure Ended (gone : Nat → Prop) (s t : System) : Prop where
  counter : t.nextId = s.nextId
  registered : ∀ j, t.IsRegistered j ↔ s.IsRegistered j ∧ ¬ gone j
  halted : ∀ j, gone j → t.process? j = (s.process? j).map (·.halt)
  others : ∀ j, ¬ gone j → t.process? j = s.process? j ∧ t.owner? j = s.owner? j

theorem Unwinding.ended (h : Unwinding s id [] t) : Ended (Descends s id) s t := by
  have hgone : ∀ j, Descends s id j ↔ s.IsRegistered j ∧ ¬ t.IsRegistered j := by
    intro j
    constructor
    · intro hj
      induction hj with
      | self => exact h.root
      | child hj hc hregistered ih =>
        exact ⟨hregistered, h.closed _ ih.1 ih.2 List.not_mem_nil _ hc⟩
    · exact fun hj => h.below j hj.1 hj.2
  refine ⟨h.counter, fun j => ?_, fun j hj => ?_, fun j hj => ?_⟩
  · rw [hgone j]
    have hregistered := h.registered j
    tauto
  · obtain ⟨hs, ht⟩ := (hgone j).1 hj
    exact h.halted j (by simp [concerned]) hs ht
  · exact h.others j fun hs => not_not.1 fun ht => hj ((hgone j).2 ⟨hs, ht⟩)

theorem Unwinding.sweep (halive : ∀ j, s.IsRegistered j → ∃ p, s.process? j = some p ∧
    p.halted = false) (h : Unwinding s id pending k.1) :
    Unwinding s id [] (Kernel.sweep pending k).1 := by
  fun_induction Kernel.sweep pending k with
  | case1 k => exact h
  | case2 k i rest ih =>
    have hi := h.left i (head_mem_concerned _ _)
    exact ih (h.release (halive i hi.1))
  | case3 k i rest found ih => exact ih h.expand

theorem unwinding_begin (hid : s.IsRegistered id) :
    Unwinding s id [.expand id] ((s.unregister id).modifyProcess id (·.hang)) := by
  have hconcerned : ∀ j, j ∈ concerned [.expand id] ↔ j = id := by
    intro j
    rw [concerned_singleton]
    exact Set.mem_singleton_iff
  have hregistered : ∀ j, ((s.unregister id).modifyProcess id (·.hang)).IsRegistered j ↔
      s.IsRegistered j ∧ j ≠ id := fun j => System.isRegistered_unregister
  refine ⟨by simp, ⟨hid, fun h => ((hregistered id).1 h).2 rfl⟩, ?_, ?_, ?_, ?_, ?_, ?_, ?_, rfl⟩
  · rintro j hj
    obtain rfl := (hconcerned j).1 hj
    exact ⟨hid, fun h => ((hregistered j).1 h).2 rfl⟩
  · exact fun j hj => ((hregistered j).1 hj).1
  · rintro j hj
    obtain rfl := (hconcerned j).1 hj
    rw [System.process?_modifyProcess, if_pos rfl]
    rfl
  · intro j hj hs ht
    exact absurd ((hregistered j).2 ⟨hs, fun heq => hj ((hconcerned j).2 heq)⟩) ht
  · intro j hj
    have hne : j ≠ id := by
      rintro rfl
      exact ((hregistered j).1 (hj hid)).2 rfl
    rw [System.process?_modifyProcess, if_neg (Ne.symm hne)]
    exact ⟨rfl, owner?_unregister hne⟩
  · intro j hs ht
    obtain rfl : j = id := not_not.1 fun hne => ht ((hregistered j).2 ⟨hs, hne⟩)
    exact .self
  · intro j hs ht hpending
    obtain rfl : j = id := not_not.1 fun hne => ht ((hregistered j).2 ⟨hs, hne⟩)
    simp at hpending

/-- All that can be reached from the process has ended with it, and nothing else. -/
theorem ended_haltSubtree (hs : k.1.Orderly ∅) (hid : k.1.IsRegistered id) :
    Ended (Descends k.1 id) k.1 (reached (haltSubtree id k)).1 := by
  rw [haltSubtree_eq, if_pos hid]
  exact (Unwinding.sweep (k := ((k.1.unregister id).modifyProcess id (·.hang), k.2))
    hs.recorded.alive (unwinding_begin hid)).ended

/-- Its children go on. -/
theorem ended_halt (hs : k.1.Orderly ∅) (hid : k.1.IsRegistered id) :
    Ended (· = id) k.1 (reached (halt id k)).1 := by
  obtain ⟨p, hp, halive⟩ := hs.recorded.alive id hid
  have hrelease : (Kernel.release id (k.1.unregister id, k.2)).1 =
      (k.1.unregister id).modifyProcess id (·.halt) :=
    release_of_alive (k := (k.1.unregister id, k.2)) hp halive
  rw [halt_eq, if_pos hid]
  show Ended _ k.1 (Kernel.release id (k.1.unregister id, k.2)).1
  rw [hrelease]
  refine ⟨rfl, fun j => System.isRegistered_unregister, ?_, fun j hj => ?_⟩
  · rintro j rfl
    rw [System.process?_modifyProcess, if_pos rfl]
    rfl
  · rw [System.process?_modifyProcess, if_neg (Ne.symm hj)]
    exact ⟨rfl, owner?_unregister hj⟩

/-! ### The bytes -/

/-- No byte is written. -/
structure SameBytes (a b : Arena) : Prop where
  store : b.store = a.store
  limit : b.limit = a.limit

variable {a b c : Arena}

theorem SameBytes.refl (a : Arena) : SameBytes a a :=
  ⟨rfl, rfl⟩

theorem SameBytes.trans (hab : SameBytes a b) (hbc : SameBytes b c) : SameBytes a c :=
  ⟨hbc.store.trans hab.store, hbc.limit.trans hab.limit⟩

theorem SameBytes.spares (h : SameBytes a b) (kept : List (Nat × Nat)) : Arena.Spares kept a b :=
  Arena.spares_of_store_eq h.limit h.store kept

theorem sameBytes_discard (a : Arena) (addr : Nat) : SameBytes a (a.discard addr) := by
  rw [Arena.discard]
  split
  · rename_i hfree
    obtain ⟨blocks, -, rfl⟩ := Arena.free_eq_ok hfree
    exact ⟨rfl, rfl⟩
  · exact .refl a

theorem sameBytes_releaseContext (c : Context) (a : Arena) : SameBytes a (c.release a) := by
  have hboth := (sameBytes_discard a c.heap.base).trans (sameBytes_discard _ c.stack.base)
  rw [Context.release, Stack.release, Heap.release]
  cases c.stack.frames with
  | none => exact hboth
  | some region => exact hboth.trans (sameBytes_discard _ region)

theorem sameBytes_release (id : Nat) (k : Kernel) : SameBytes k.2 (release id k).2 := by
  obtain ⟨s, a⟩ := k
  simp only [release]
  split
  · exact .refl a
  · rename_i p hp
    split
    · exact .refl a
    · have hcontext : SameBytes a (p.context.elim a (·.release a)) := by
        cases p.context with
        | none => exact .refl a
        | some c => exact sameBytes_releaseContext c a
      cases p.image with
      | none => exact hcontext
      | some image =>
        simp only [Option.elim_some, dropImage]
        split
        · exact hcontext
        · exact hcontext.trans (sameBytes_discard _ _)

theorem sameBytes_sweep (pending : List Ending) (k : Kernel) :
    SameBytes k.2 (sweep pending k).2 := by
  fun_induction Kernel.sweep pending k with
  | case1 k => exact .refl _
  | case2 k i rest ih => exact (sameBytes_release i k).trans ih
  | case3 k i rest found ih => exact ih

theorem sameBytes_halt (id : Nat) (k : Kernel) : SameBytes k.2 (reached (halt id k)).2 := by
  rw [halt_eq]
  by_cases hid : k.1.IsRegistered id
  · rw [if_pos hid]
    exact sameBytes_release id (k.1.unregister id, k.2)
  · rw [if_neg hid]
    exact .refl _

theorem sameBytes_haltSubtree (id : Nat) (k : Kernel) :
    SameBytes k.2 (reached (haltSubtree id k)).2 := by
  rw [haltSubtree_eq]
  by_cases hid : k.1.IsRegistered id
  · rw [if_pos hid]
    exact sameBytes_sweep _ ((k.1.unregister id).modifyProcess id (·.hang), k.2)
  · rw [if_neg hid]
    exact .refl _

end Kernel

end BytecodeKernel
