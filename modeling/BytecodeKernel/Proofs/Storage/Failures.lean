import BytecodeKernel.Proofs.Storage.Streams
/-!
What an operation that fails leaves behind. Creating a cell and opening a stream use the directory
first and touch the table only when that succeeded, so their failures change nothing. A deletion
takes the cell from the table and closes its stream before it tries to remove the file. If a folder
has come to stand in place of the file, the removal fails, and the cell is gone all the same.

A store goes through any history here: its clients act, it is made anew from its directory, and
others change the directory behind its back. What carries over is that no two cells have the same
stream, so that the loss of one cell is not felt by another.
-/

namespace BytecodeKernel.CellStore

/-! ### Histories -/

/-- What happens to a store. -/
inductive Event where
  | act (a : Act)
  | reopen
  /-- Someone else puts names and files of the directory as they like. -/
  | outside (d : Directory)

namespace Session

def happen (σ : Session) : Event → Session
  | .act a => σ.act a
  | .reopen => { σ with store := σ.store.reopen }
  | .outside d => { σ with store := { σ.store with directory := d } }

def history (σ : Session) (events : List Event) : Session :=
  events.foldl happen σ

end Session

/-- Every cell whose stream has a number has it alone, and the number was handed out. -/
structure Numbered (s : CellStore) : Prop where
  issued : ∀ (key : List UInt8) (c : Cell) (n : Nat), s.cells[key]? = some c →
    c.stream = some n → n < s.nextStream
  apart : ∀ (a b : List UInt8) (c c' : Cell) (n : Nat), s.cells[a]? = some c →
    s.cells[b]? = some c' → c.stream = some n → c'.stream = some n → a = b

variable {s t : CellStore} {d : Directory} {key : List UInt8} {c : Cell} {number : Nat}

theorem numbered_of_cellsOf {coding : Coding} (h : s.cells = cellsOf coding d) : s.Numbered where
  issued _ c _ hc hstream := by
    rw [h] at hc
    cases (stream_of_cellsOf hc).symm.trans hstream
  apart _ _ c _ _ hc _ hstream _ := by
    rw [h] at hc
    cases (stream_of_cellsOf hc).symm.trans hstream

theorem Numbered.congr (h : s.Numbered) (hcells : t.cells = s.cells)
    (hnext : t.nextStream = s.nextStream) : t.Numbered where
  issued := by
    rw [hcells, hnext]
    exact h.issued
  apart := by
    rw [hcells]
    exact h.apart

/-- A cell is set whose stream, if it has one, is newer than all others. -/
theorem Numbered.insert (h : s.Numbered) (hcells : t.cells = s.cells.insert key c)
    (hnext : s.nextStream ≤ t.nextStream)
    (hnew : ∀ n, c.stream = some n → s.nextStream ≤ n ∧ n < t.nextStream) : t.Numbered where
  issued a x n hx hxn := by
    rw [hcells] at hx
    rcases getElem?_insert_eq_some.1 hx with ⟨-, rfl⟩ | ⟨-, hx⟩
    · exact (hnew n hxn).2
    · exact (h.issued a x n hx hxn).trans_le hnext
  apart a b x y n hx hy hxn hyn := by
    rw [hcells] at hx hy
    rcases getElem?_insert_eq_some.1 hx with ⟨ha, rfl⟩ | ⟨-, hx⟩ <;>
      rcases getElem?_insert_eq_some.1 hy with ⟨hb, rfl⟩ | ⟨-, hy⟩
    · exact ha.symm.trans hb
    · exact absurd (h.issued b y n hy hyn) (Nat.not_lt.2 (hnew n hxn).1)
    · exact absurd (h.issued a x n hx hxn) (Nat.not_lt.2 (hnew n hyn).1)
    · exact h.apart a b x y n hx hy hxn hyn

theorem getElem?_erase_eq_some {other : List UInt8} :
    (s.cells.erase key)[other]? = some c ↔ key ≠ other ∧ s.cells[other]? = some c := by
  rw [Std.TreeMap.getElem?_erase]
  by_cases heq : key = other
  · simp [heq]
  · rw [if_neg (Std.compare_eq_iff_eq.not.2 heq)]
    simp [heq]

theorem Numbered.without (h : s.Numbered) (key : List UInt8) (c : Cell) :
    (s.without key c).Numbered where
  issued a x n hx hxn := by
    rw [cells_without] at hx
    rw [nextStream_without]
    exact h.issued a x n (getElem?_erase_eq_some.1 hx).2 hxn
  apart a b x y n hx hy hxn hyn := by
    rw [cells_without] at hx hy
    exact h.apart a b x y n (getElem?_erase_eq_some.1 hx).2 (getElem?_erase_eq_some.1 hy).2 hxn hyn

theorem Numbered.opened (h : s.Numbered) (key : List UInt8) (c : Cell) (d : Directory) :
    (s.opened key c d).Numbered := by
  apply h.insert rfl (Nat.le_succ _)
  intro n hn
  cases hn
  exact ⟨Nat.le_refl _, Nat.lt_succ_self _⟩

/-- The store after an operation, successful or not. -/
def after {α : Type} (x : CellM α) (s : CellStore) : CellStore :=
  match x s with
  | .ok _ t | .error _ t => t

theorem Numbered.create (h : s.Numbered) (key : List UInt8) : (after (create key) s).Numbered := by
  rw [after, create_eq]
  by_cases hkey : s.contains key
  · rw [if_pos hkey]
    exact h
  · rw [if_neg hkey]
    cases s.directory.create (s.coding.text key) with
    | error e => exact h
    | ok made => exact h.insert rfl (Nat.le_refl _) fun n hn => by cases hn

theorem Numbered.delete (h : s.Numbered) (key : List UInt8) : (after (delete key) s).Numbered := by
  rw [after, delete_eq]
  cases s.cells[key]? with
  | none => exact h
  | some c =>
    have hwithout := h.without key c
    dsimp only
    by_cases hfile : (s.directory.lookup? c.name).isSome
    · rw [if_pos hfile]
      cases s.directory.remove c.name with
      | error e => exact hwithout
      | ok directory => exact hwithout.congr rfl rfl
    · rw [if_neg hfile]
      exact hwithout

theorem Numbered.openStream (h : s.Numbered) (key : List UInt8) (writes : Bool)
    (f : String → Directory → Except FileError (Entry × Directory)) :
    (after (openStream key writes f) s).Numbered := by
  rw [after, openStream_eq]
  cases s.cells[key]? with
  | none => exact h
  | some c =>
    dsimp only
    by_cases hbusy : s.IsBusy c
    · rw [if_pos hbusy]
      exact h
    · rw [if_neg hbusy]
      cases f c.name s.directory with
      | error e => exact h
      | ok made => exact h.opened key c made.2

theorem Numbered.readAll (h : s.Numbered) (key : List UInt8) :
    (after (readAll key) s).Numbered := by
  rw [after, readAll_eq]
  cases s.cells[key]? with
  | none => exact h
  | some c =>
    have hclosed : ((s.opened key c s.directory).close s.nextStream).Numbered :=
      (h.opened key c s.directory).congr rfl rfl
    dsimp only
    by_cases hbusy : s.IsBusy c
    · rw [if_pos hbusy]
      exact h
    · rw [if_neg hbusy]
      cases s.directory.openEntry c.name with
      | error e => exact h
      | ok entry => cases entry <;> exact hclosed

theorem Numbered.writeAll (h : s.Numbered) (key bytes : List UInt8) :
    (after (writeAll key bytes) s).Numbered := by
  rw [after, writeAll_eq]
  cases s.cells[key]? with
  | none => exact h
  | some c =>
    dsimp only
    by_cases hbusy : s.IsBusy c
    · rw [if_pos hbusy]
      exact h
    · rw [if_neg hbusy]
      cases s.directory.create c.name with
      | error e => exact h
      | ok made => exact (h.opened key c (made.2.writeAt made.1 0 bytes)).congr rfl rfl

theorem Numbered.use (h : s.Numbered) (u : Use) (stream : Stream) :
    (after (u.of stream) s).Numbered := by
  rw [after]
  rcases u.cases stream s with ⟨e, heq⟩ | ⟨stream', t, heq, -, hcells, hnext, -⟩
  · rw [heq]
    exact h
  · rw [heq]
    exact h.congr hcells hnext

namespace Session

variable {σ : Session}

theorem store_apply {α : Type} (σ : Session) (x : CellM α) :
    (σ.apply x).store = after x σ.store := by
  rw [apply, after]
  cases x σ.store <;> rfl

theorem store_grant (σ : Session) (key : List UInt8) (x : CellM Stream) :
    (σ.grant key x).store = after x σ.store := by
  rw [grant, after]
  cases x σ.store <;> rfl

theorem numbered_use (h : σ.store.Numbered) (index : Nat) (u : Use) :
    (σ.use index u).store.Numbered := by
  rw [use]
  cases σ.handles[index]? with
  | none => exact h
  | some handle =>
    have hafter := h.use u handle.stream
    rw [after] at hafter
    dsimp only
    cases hof : u.of handle.stream σ.store <;> (rw [hof] at hafter; exact hafter)

theorem numbered_act (h : σ.store.Numbered) (a : Act) : (σ.act a).store.Numbered := by
  cases a with
  | create key => exact store_apply σ _ ▸ h.create key
  | delete key => exact store_apply σ _ ▸ h.delete key
  | openReader key => exact store_grant σ key _ ▸ h.openStream key _ _
  | openWriter key => exact store_grant σ key _ ▸ h.openStream key _ _
  | readAll key => exact store_apply σ _ ▸ h.readAll key
  | writeAll key bytes => exact store_apply σ _ ▸ h.writeAll key bytes
  | use index u => exact numbered_use h index u

theorem numbered_happen (h : σ.store.Numbered) (e : Event) : (σ.happen e).store.Numbered := by
  cases e with
  | act a => exact numbered_act h a
  | reopen => exact numbered_of_cellsOf rfl
  | outside d => exact h.congr rfl rfl

theorem numbered_history (h : σ.store.Numbered) (events : List Event) :
    (σ.history events).store.Numbered := by
  induction events generalizing σ with
  | nil => exact h
  | cons e rest ih => exact ih (numbered_happen h e)

end Session

/-! ### Failures -/

/-- Every key is known or unknown as before, and free or taken as before, and every open stream is
open still. -/
structure Intact (s t : CellStore) : Prop where
  contains : ∀ key, t.contains key = s.contains key
  isReachable : ∀ key, t.IsReachable key ↔ s.IsReachable key
  isOpen : ∀ n, s.IsOpen n → t.IsOpen n

theorem Intact.refl (s : CellStore) : s.Intact s :=
  ⟨fun _ => rfl, fun _ => Iff.rfl, fun _ h => h⟩

theorem create_failed {e : StorageError} (h : create key s = .error e t) : t = s := by
  rw [create_eq] at h
  by_cases hkey : s.contains key
  · rw [if_pos hkey] at h
    cases h
  · rw [if_neg hkey] at h
    cases hmade : s.directory.create (s.coding.text key) <;> rw [hmade] at h <;> cases h
    rfl

theorem openStream_failed {e : StorageError} {writes : Bool}
    {f : String → Directory → Except FileError (Entry × Directory)}
    (h : openStream key writes f s = .error e t) : t = s := by
  rw [openStream_eq] at h
  cases hc : s.cells[key]? with
  | none =>
    rw [hc] at h
    cases h
    rfl
  | some c =>
    simp only [hc] at h
    by_cases hbusy : s.IsBusy c
    · rw [if_pos hbusy] at h
      cases h
      rfl
    · rw [if_neg hbusy] at h
      cases hmade : f c.name s.directory <;> rw [hmade] at h <;> cases h
      rfl

/-- What a directory says to the removal of a name that leads somewhere. -/
theorem remove_of_lookup? {name : String} {entry : Entry} (h : d.lookup? name = some entry) :
    d.remove name =
      match entry with
      | .file _ => .ok { d with entries := d.entries.erase name }
      | .folder => .error .isADirectory := by
  simp only [Directory.remove, Directory.openEntry, h, bind, Except.bind]
  cases entry <;> rfl

/-- A deletion fails where a folder stands in place of the cell's file, and nowhere else. -/
theorem delete_error_iff {e : StorageError} : delete key s = .error e t ↔
    ∃ c, s.cells[key]? = some c ∧ s.directory.lookup? c.name = some .folder ∧
      e = .file .isADirectory ∧ t = s.without key c := by
  rw [delete_eq]
  cases hc : s.cells[key]? with
  | none => simp
  | some c =>
    cases hentry : s.directory.lookup? c.name with
    | none => simp [hentry]
    | some entry =>
      simp only [hentry, Option.isSome_some, if_true, remove_of_lookup? hentry]
      cases entry <;> simp [eq_comm, hentry]

theorem contains_eq (s : CellStore) (key : List UInt8) :
    s.contains key = (s.cells[key]?).isSome :=
  Std.TreeMap.contains_eq_isSome_getElem?

theorem getElem?_cells_without_of_ne {other : List UInt8} (h : other ≠ key) :
    (s.without key c).cells[other]? = s.cells[other]? := by
  rw [cells_without, Std.TreeMap.getElem?_erase, if_neg (Std.compare_eq_iff_eq.not.2 h.symm)]

theorem not_contains_without (s : CellStore) (key : List UInt8) (c : Cell) :
    (s.without key c).contains key = false := by
  rw [contains_eq, cells_without]
  simp

/-- Nobody but the holder of its stream feels the loss of a cell. -/
theorem Numbered.isReachable_without (h : s.Numbered) (hc : s.cells[key]? = some c)
    {other : List UInt8} (hne : other ≠ key) :
    (s.without key c).IsReachable other ↔ s.IsReachable other := by
  rw [IsReachable, IsReachable, getElem?_cells_without_of_ne hne]
  refine forall₂_congr fun x hx => not_congr (exists_congr fun n => and_congr_right fun hxn => ?_)
  rw [isOpen_without]
  refine and_iff_left_of_imp fun _ hcn => hne ?_
  exact h.apart other key x c n hx hc hxn hcn

/-- What the failures of a store's operations leave. -/
structure FailuresOf (s : CellStore) : Prop where
  /-- Where nothing was created or opened, nothing changed. -/
  refused : ∀ key e t, create key s = .error e t ∨ openReader key s = .error e t ∨
    openWriter key s = .error e t → t = s
  /-- A deletion fails exactly if a folder stands in place of the file. -/
  undeleted : ∀ key e t, delete key s = .error e t ↔
    ∃ c, s.cells[key]? = some c ∧ s.directory.lookup? c.name = some .folder ∧
      e = .file .isADirectory ∧ t = s.without key c
  /-- Then the cell is gone as if it had been deleted, its stream with it, and all else stays. -/
  gone : ∀ key e t c, delete key s = .error e t → s.cells[key]? = some c →
    t.directory = s.directory ∧ s.contains key = true ∧ t.contains key = false ∧
      t.IsReachable key ∧ (∀ n, t.IsOpen n ↔ s.IsOpen n ∧ c.stream ≠ some n) ∧
      ∀ other ≠ key, t.contains other = s.contains other ∧
        (t.IsReachable other ↔ s.IsReachable other)
  /-- So all failures but those of deletions leave the table as it was. -/
  intact : ∀ key e t, (create key s = .error e t ∨ openReader key s = .error e t ∨
    openWriter key s = .error e t → s.Intact t) ∧ (delete key s = .error e t → ¬ s.Intact t)

theorem failuresOf_of_numbered (h : s.Numbered) : s.FailuresOf := by
  have hrefused (key : List UInt8) (e : StorageError) (t : CellStore)
      (hfailed : create key s = .error e t ∨ openReader key s = .error e t ∨
        openWriter key s = .error e t) : t = s := by
    rcases hfailed with hfailed | hfailed | hfailed
    · exact create_failed hfailed
    · exact openStream_failed hfailed
    · exact openStream_failed hfailed
  have hgone (key : List UInt8) (e : StorageError) (t : CellStore) (c : Cell)
      (hfailed : delete key s = .error e t) (hc : s.cells[key]? = some c) :
      t = s.without key c := by
    obtain ⟨c', hc', -, -, rfl⟩ := delete_error_iff.1 hfailed
    cases hc.symm.trans hc'
    rfl
  refine ⟨hrefused, fun key e t => delete_error_iff, fun key e t c hfailed hc => ?_,
    fun key e t => ⟨fun hfailed => ?_, fun hfailed hintact => ?_⟩⟩
  · cases hgone key e t c hfailed hc
    refine ⟨directory_without s key c, ?_, not_contains_without s key c,
      isReachable_of_not_contains (not_contains_without s key c), fun n => isOpen_without,
      fun other hne => ⟨?_, h.isReachable_without hc hne⟩⟩
    · rw [contains_eq, hc]
      rfl
    · rw [contains_eq, contains_eq, getElem?_cells_without_of_ne hne]
  · cases hrefused key e t hfailed
    exact .refl s
  · obtain ⟨c, hc, -, -, rfl⟩ := delete_error_iff.1 hfailed
    have hsame := hintact.contains key
    rw [not_contains_without, contains_eq, hc] at hsame
    cases hsame

/-- Whatever happened to a store, its own clients and others included, a failure leaves the table
as it was unless a deletion failed. -/
theorem failuresOf_history (coding : Coding) (d : Directory) (events : List Event) :
    ((Session.mk (ofDirectory coding d) []).history events).store.FailuresOf := by
  apply failuresOf_of_numbered
  apply Session.numbered_history
  exact numbered_of_cellsOf rfl

/-- A cell is created, and a folder takes the place of its file. -/
def usurped : CellStore :=
  let folder : Directory := { entries := ({} : Std.TreeMap String Entry).insert "6b" .folder }
  ((Session.mk (ofDirectory .hex {}) []).history [.act (.create [0x6b]), .outside folder]).store

theorem cells_usurped : usurped.cells[([0x6b] : List UInt8)]? = some { name := "6b" } :=
  rfl

theorem lookup?_usurped : usurped.directory.lookup? "6b" = some .folder := by
  decide

/-- The deletion reports that it failed, and the cell is gone. -/
theorem cell_lost_by_failed_deletion :
    ∃ t, delete [0x6b] usurped = .error (.file .isADirectory) t ∧
      t.directory = usurped.directory ∧ usurped.contains [0x6b] = true ∧
      t.contains [0x6b] = false ∧ ¬ usurped.Intact t := by
  have hcontained : usurped.contains [0x6b] = true := by
    rw [contains_eq, cells_usurped]
    rfl
  refine ⟨usurped.without [0x6b] { name := "6b" }, ?_, directory_without _ _ _, hcontained,
    not_contains_without _ _ _, fun hintact => ?_⟩
  · exact delete_error_iff.2 ⟨_, cells_usurped, lookup?_usurped, rfl, rfl⟩
  · have hsame := hintact.contains [0x6b]
    rw [not_contains_without, hcontained] at hsame
    cases hsame

end BytecodeKernel.CellStore
