import BytecodeKernel.Proofs.Kernel.Requests
import BytecodeKernel.Proofs.Machine.Contexts
import BytecodeKernel.Proofs.Machine.Workspaces
/-!
The memory that processes hold, read off their records: the regions of each process that has a
context, and the block of each program, once for all the processes that share it. A process whose
context is lent to a machine is left out, since the machine has its regions then.
-/

namespace BytecodeKernel

def Process.rooms (p : Process) : List (Nat × Nat) :=
  p.context.elim [] Context.regions

/-- The block of the program, if there is one. -/
def Process.program? (p : Process) : Option (Nat × Nat) :=
  p.image.map Image.region

/-! ### Lists of records -/

/-- The regions on these records, without those of a process that is lent. -/
def roomsOn (lent : Option Nat) (records : List (Nat × Process)) : List (Nat × Nat) :=
  records.flatMap fun (id, p) => if lent = some id then [] else p.rooms

/-- The blocks of the programs on these records, each once. -/
def programsOn (records : List (Nat × Process)) : List (Nat × Nat) :=
  (records.filterMap (·.2.program?)).dedup

section Records

variable {records others : List (Nat × Process)} {lent : Option Nat} {id : Nat} {p : Process}

theorem roomsOn_perm (lent : Option Nat) (h : records.Perm others) :
    (roomsOn lent records).Perm (roomsOn lent others) :=
  h.flatMap_right _

theorem programsOn_perm (h : records.Perm others) : (programsOn records).Perm (programsOn others) :=
  (h.filterMap _).dedup

theorem roomsOn_cons (h : lent ≠ some id) :
    roomsOn lent ((id, p) :: records) = p.rooms ++ roomsOn lent records := by
  simp [roomsOn, h]

theorem roomsOn_cons_lent : roomsOn (some id) ((id, p) :: records) = roomsOn (some id) records := by
  simp [roomsOn]

theorem roomsOn_of_not_mem (h : ∀ e ∈ records, e.1 ≠ id) :
    roomsOn (some id) records = roomsOn none records := by
  refine List.flatMap_congr fun e he => ?_
  have hne : ¬ some id = some e.1 := fun heq => h e he (Option.some.inj heq).symm
  simp only [if_neg hne, reduceCtorEq, if_false]

theorem mem_programsOn {r : Nat × Nat} :
    r ∈ programsOn records ↔ ∃ e ∈ records, e.2.program? = some r := by
  rw [programsOn, List.mem_dedup, List.mem_filterMap]

theorem programsOn_cons_none (h : p.program? = none) :
    programsOn ((id, p) :: records) = programsOn records := by
  simp [programsOn, h]

theorem programsOn_cons_some {r : Nat × Nat} (h : p.program? = some r) :
    programsOn ((id, p) :: records) = (programsOn records).insert r := by
  simp only [programsOn, List.filterMap_cons, h]
  by_cases hmem : r ∈ records.filterMap (·.2.program?)
  · rw [List.dedup_cons_of_mem hmem, List.insert_of_mem (List.mem_dedup.2 hmem)]
  · rw [List.dedup_cons_of_notMem hmem, List.insert_of_not_mem (mt List.mem_dedup.1 hmem)]

end Records

namespace System

def rooms (lent : Option Nat) (s : System) : List (Nat × Nat) :=
  roomsOn lent s.processes.toList

def programs (s : System) : List (Nat × Nat) :=
  programsOn s.processes.toList

/-- What the processes hold, but for one that is lent. -/
def regions (lent : Option Nat) (s : System) : List (Nat × Nat) :=
  s.rooms lent ++ s.programs

variable {s t : System} {lent : Option Nat} {id : Nat} {p : Process}

theorem mem_processes_toList {e : Nat × Process} :
    e ∈ s.processes.toList ↔ s.process? e.1 = some e.2 :=
  Std.TreeMap.mem_toList_iff_getElem?_eq_some

theorem mem_programs {r : Nat × Nat} :
    r ∈ s.programs ↔ ∃ id p image, s.process? id = some p ∧ p.image = some image ∧
      image.region = r := by
  rw [programs, mem_programsOn]
  constructor
  · rintro ⟨⟨id, p⟩, he, hr⟩
    obtain ⟨image, himage, rfl⟩ := Option.map_eq_some_iff.1 hr
    exact ⟨id, p, image, mem_processes_toList.1 he, himage, rfl⟩
  · rintro ⟨id, p, image, hp, himage, rfl⟩
    exact ⟨(id, p), mem_processes_toList.2 hp, by rw [Process.program?, himage]; rfl⟩

theorem mem_rooms {r : Nat × Nat} :
    r ∈ s.rooms lent ↔ ∃ id p context, s.process? id = some p ∧ lent ≠ some id ∧
      p.context = some context ∧ r ∈ context.regions := by
  rw [rooms, roomsOn, List.mem_flatMap]
  constructor
  · rintro ⟨⟨id, p⟩, he, hr⟩
    simp only at hr
    split at hr
    · contradiction
    · rename_i hlent
      cases hcontext : p.context with
      | none => simp [Process.rooms, hcontext] at hr
      | some context =>
        simp only [Process.rooms, hcontext, Option.elim_some] at hr
        exact ⟨id, p, context, mem_processes_toList.1 he, hlent, hcontext, hr⟩
  · rintro ⟨id, p, context, hp, hlent, hcontext, hr⟩
    refine ⟨(id, p), mem_processes_toList.2 hp, ?_⟩
    simpa only [if_neg hlent, Process.rooms, hcontext, Option.elim_some] using hr

/-- The records without one of them. A change to that one leaves the others as they are. -/
theorem exists_split (h : s.process? id = some p) :
    ∃ rest, s.processes.toList.Perm ((id, p) :: rest) ∧
      (∀ f, (s.modifyProcess id f).processes.toList.Perm ((id, f p) :: rest)) ∧
      ∀ e ∈ rest, e.1 ≠ id := by
  refine ⟨(s.processes.erase id).toList, toList_perm_cons_erase h, fun f => ?_, ?_⟩
  · have hafter : (s.modifyProcess id f).process? id = some (f p) := by
      rw [process?_modify_self h]
    refine (toList_perm_cons_erase hafter).trans ((toList_perm_of_getElem? fun j => ?_).cons _)
    simp only [Std.TreeMap.getElem?_erase, Nat.compare_eq_eq]
    split
    · rfl
    · rename_i hj
      exact (process?_modifyProcess s id j f).trans (if_neg hj)
  · rintro ⟨j, q⟩ hmem rfl
    rw [Std.TreeMap.mem_toList_iff_getElem?_eq_some] at hmem
    simp at hmem

theorem modifyProcess_of_none (h : s.process? id = none) (f : Process → Process) :
    (s.modifyProcess id f).processes.toList.Perm s.processes.toList := by
  refine toList_perm_of_getElem? fun j => ?_
  refine (process?_modifyProcess s id j f).trans ?_
  split
  · rename_i hj
    subst hj
    exact (congrArg _ h).trans h.symm
  · rfl

theorem regions_congr (h : t.processes = s.processes) : t.regions lent = s.regions lent := by
  rw [regions, regions, rooms, rooms, programs, programs, h]

/-- A change that neither gives nor takes anything. -/
theorem regions_modify (lent : Option Nat) (s : System) (id : Nat) {f : Process → Process}
    (hf : ∀ p, s.process? id = some p → (f p).image = p.image ∧
      (lent ≠ some id → (f p).context = p.context)) :
    ((s.modifyProcess id f).regions lent).Perm (s.regions lent) ∧
      (s.modifyProcess id f).programs.Perm s.programs := by
  cases hp : s.process? id with
  | none =>
    have hsame := modifyProcess_of_none hp f
    exact ⟨(roomsOn_perm lent hsame).append (programsOn_perm hsame), programsOn_perm hsame⟩
  | some p =>
    obtain ⟨rest, hbefore, hafter, -⟩ := exists_split hp
    obtain ⟨himage, hcontext⟩ := hf p hp
    have hprograms : programsOn ((id, f p) :: rest) = programsOn ((id, p) :: rest) := by
      simp only [programsOn, List.filterMap_cons, Process.program?, himage]
    have hrooms : roomsOn lent ((id, f p) :: rest) = roomsOn lent ((id, p) :: rest) := by
      by_cases hlent : lent = some id
      · rw [hlent, roomsOn_cons_lent, roomsOn_cons_lent]
      · rw [roomsOn_cons hlent, roomsOn_cons hlent, Process.rooms, Process.rooms, hcontext hlent]
    have hprograms' : (s.modifyProcess id f).programs.Perm s.programs :=
      (programsOn_perm (hafter f)).trans (hprograms ▸ (programsOn_perm hbefore).symm)
    exact ⟨((roomsOn_perm lent (hafter f)).trans
      (hrooms ▸ (roomsOn_perm lent hbefore).symm)).append hprograms', hprograms'⟩

/-- A new process holds its regions and nothing else. -/
theorem regions_entered (parent : Option Nat) (context : Context)
    (hfresh : s.process? s.nextId = none) (hlent : lent ≠ some s.nextId) :
    ((s.entered parent context).regions lent).Perm (context.regions ++ s.regions lent) ∧
      (s.entered parent context).programs.Perm s.programs := by
  -- To link the child to its parent neither gives nor takes anything.
  obtain ⟨linked, hlinked, hregions, hprograms, hnone⟩ : ∃ linked : System,
      (s.entered parent context).processes =
        linked.processes.insert s.nextId { id := s.nextId, context := some context } ∧
      (linked.regions lent).Perm (s.regions lent) ∧ linked.programs.Perm s.programs ∧
      linked.process? s.nextId = none := by
    cases parent with
    | none => exact ⟨s.counted, rfl, .refl _, .refl _, hfresh⟩
    | some parent =>
      have hlinked (p : Process) : (p.addChild s.nextId).image = p.image ∧
          (p.addChild s.nextId).context = p.context := by
        rw [Process.addChild]
        split <;> exact ⟨rfl, rfl⟩
      obtain ⟨hregions, hprograms⟩ := regions_modify lent s.counted parent
        fun p _ => ⟨(hlinked p).1, fun _ => (hlinked p).2⟩
      refine ⟨_, rfl, hregions, hprograms, ?_⟩
      rw [process?_modifyProcess]
      split
      · rename_i heq
        subst heq
        exact congrArg _ hfresh
      · exact hfresh
  have hperm : (s.entered parent context).processes.toList.Perm
      ((s.nextId, { id := s.nextId, context := some context }) :: linked.processes.toList) := by
    rw [hlinked]
    exact (toList_insert_perm_erase _ _ _).trans ((toList_perm_erase hnone).symm.cons _)
  have hnew : (s.entered parent context).programs.Perm s.programs := by
    refine (programsOn_perm hperm).trans ?_
    rw [programsOn_cons_none rfl]
    exact hprograms
  refine ⟨?_, hnew⟩
  have hrooms : ((s.entered parent context).rooms lent).Perm
      (context.regions ++ linked.rooms lent) := by
    refine (roomsOn_perm lent hperm).trans ?_
    rw [roomsOn_cons hlent]
    exact .refl _
  refine (hrooms.append (hnew.trans hprograms.symm)).trans ?_
  rw [List.append_assoc]
  exact hregions.append_left _

/-- A process that gets its program shares the block with others that have it. -/
theorem regions_bound (lent : Option Nat) (image : Image) (hp : s.process? id = some p)
    (himage : p.image = none) :
    ((Kernel.bound s id image).rooms lent).Perm (s.rooms lent) ∧
      (Kernel.bound s id image).programs.Perm (s.programs.insert image.region) := by
  obtain ⟨rest, hbefore, hafter, -⟩ := exists_split hp
  have hnone : p.program? = none := by rw [Process.program?, himage]; rfl
  constructor
  · refine (roomsOn_perm lent (hafter _)).trans (.trans ?_ (roomsOn_perm lent hbefore).symm)
    exact .refl _
  · have hprograms : s.programs.Perm (programsOn rest) :=
      (programsOn_perm hbefore).trans (.of_eq (programsOn_cons_none hnone))
    refine (programsOn_perm (hafter _)).trans ?_
    rw [programsOn_cons_some (r := image.region) rfl]
    exact (hprograms.insert _).symm

/-- A process that is halted gives its own regions back, and its program if no other has it. -/
theorem regions_halted (hp : s.process? id = some p) :
    (s.rooms none).Perm (p.rooms ++ (s.modifyProcess id (·.halt)).rooms none) ∧
      s.programs.Perm (p.program?.elim (s.modifyProcess id (·.halt)).programs
        (s.modifyProcess id (·.halt)).programs.insert) := by
  obtain ⟨rest, hbefore, hafter, -⟩ := exists_split hp
  constructor
  · have hrooms : ((s.modifyProcess id (·.halt)).rooms none).Perm (roomsOn none rest) :=
      (roomsOn_perm none (hafter (·.halt))).trans (.of_eq (roomsOn_cons (by simp)))
    refine (roomsOn_perm none hbefore).trans ?_
    rw [roomsOn_cons (by simp)]
    exact hrooms.symm.append_left _
  · have hprograms : (s.modifyProcess id (·.halt)).programs.Perm (programsOn rest) :=
      (programsOn_perm (hafter _)).trans (.of_eq (programsOn_cons_none rfl))
    refine (programsOn_perm hbefore).trans ?_
    cases hprogram : p.program? with
    | none =>
      rw [programsOn_cons_none hprogram]
      exact hprograms.symm
    | some r =>
      rw [programsOn_cons_some hprogram]
      exact (hprograms.insert r).symm

/-- A process whose context is lent leaves the regions of the others. -/
theorem rooms_lend (hp : s.process? id = some p) :
    (s.rooms none).Perm (p.rooms ++ s.rooms (some id)) := by
  obtain ⟨rest, hbefore, -, hothers⟩ := exists_split hp
  have hrest : (s.rooms (some id)).Perm (roomsOn none rest) :=
    (roomsOn_perm _ hbefore).trans
      (.of_eq (roomsOn_cons_lent.trans (roomsOn_of_not_mem hothers)))
  refine (roomsOn_perm none hbefore).trans ?_
  rw [roomsOn_cons (by simp)]
  exact hrest.symm.append_left _

end System

end BytecodeKernel
