import BytecodeKernel.Storage.CellStore
import Mathlib.Data.String.Basic
/-!
What the operations of a store do, case by case: the answer, and the store that is left, also when
the operation fails.
-/

namespace BytecodeKernel

/-! ### Names of cells -/

namespace Hex

variable {c : Char} {bytes other : List UInt8}

theorem exists_digit_of_mem_encode (h : c ∈ encode bytes) : ∃ n < 16, c = digit n := by
  obtain ⟨b, -, hc⟩ := List.mem_flatMap.1 h
  have hb : b.toNat < 256 := b.toNat_lt
  rcases List.mem_pair.1 hc with rfl | rfl
  · exact ⟨b.toNat / 16, by omega, rfl⟩
  · exact ⟨b.toNat % 16, by omega, rfl⟩

theorem toList_text (bytes : List UInt8) : (text bytes).toList = encode bytes :=
  String.toList_ofList

/-- The text of a key is read as that key. -/
theorem decode?_text (bytes : List UInt8) : decode? (text bytes).toList = some bytes := by
  rw [toList_text, decode?_encode]

theorem text_injective (h : text bytes = text other) : bytes = other := by
  have hdecode := decode?_text bytes
  rw [h, decode?_text] at hdecode
  exact (Option.some.inj hdecode).symm

/-- Digits take a byte each. -/
theorem utf8ByteSize_text (bytes : List UInt8) : (text bytes).utf8ByteSize = 2 * bytes.length := by
  rw [text, String.utf8ByteSize_ofList, ← length_encode]
  have hdigits : ∀ c ∈ encode bytes, c.utf8Size = 1 := by
    intro c hc
    obtain ⟨n, hn, rfl⟩ := exists_digit_of_mem_encode hc
    exact (by decide : ∀ n < 16, (digit n).utf8Size = 1) n hn
  generalize encode bytes = text at hdigits
  induction text with
  | nil => rfl
  | cons c rest ih =>
    rw [String.utf8Len_cons, List.length_cons, hdigits c List.mem_cons_self,
      ih fun c hc => hdigits c (List.mem_cons_of_mem _ hc)]

end Hex

namespace Directory

variable {key : List UInt8}

theorem not_isReserved_text (hkey : key ≠ []) : ¬ IsReserved (Hex.text key) := by
  have hdecode := Hex.decode?_text key
  rintro (h | h | h) <;> rw [h] at hdecode
  · exact hkey (Option.some.inj hdecode).symm
  · cases hdecode
  · cases hdecode

theorem nul_notMem_text (key : List UInt8) : '\x00' ∉ (Hex.text key).toList := by
  rw [Hex.toList_text]
  intro h
  obtain ⟨n, hn, heq⟩ := Hex.exists_digit_of_mem_encode h
  exact (by decide : ∀ n < 16, '\x00' ≠ Hex.digit n) n hn heq

/-- The texts of keys of up to 127 bytes are not too long. -/
theorem nameError?_text (hkey : key.length ≤ 127) : nameError? (Hex.text key) = none := by
  rw [nameError?, if_neg (nul_notMem_text key), if_neg]
  rw [Hex.utf8ByteSize_text, maxNameBytes]
  omega

end Directory

namespace Coding

theorem Lawful.decode?_hex {coding : Coding} (h : coding.Lawful) (key : List UInt8) :
    coding.decode? (Hex.text key) = some key := by
  rw [← h.text_eq, h.decode?_text]

theorem lawful_hex : hex.Lawful :=
  ⟨fun _ => rfl, Hex.decode?_text⟩

end Coding

namespace CellStore

variable {s : CellStore} {key : List UInt8} {c : Cell} {stream : Stream} {number : Nat}

/-! ### The table of the cells -/

/-- The cell of a file, if its name is read as a key. -/
def addCell (coding : Coding) (cells : Std.TreeMap (List UInt8) Cell) (e : String × Entry) :
    Std.TreeMap (List UInt8) Cell :=
  match e.2, coding.decode? e.1 with
  | .file _, some key => cells.insert key { name := e.1 }
  | _, _ => cells

theorem cellsOf_eq_foldl (coding : Coding) (d : Directory) :
    cellsOf coding d = d.entries.toList.foldl (addCell coding) {} := by
  rw [cellsOf, Std.TreeMap.foldl_eq_foldl_toList]
  rfl

/-! ### Opening and deleting -/

/-- The store in which a stream of a cell was just opened. -/
def opened (s : CellStore) (key : List UInt8) (c : Cell) (directory : Directory) : CellStore :=
  { s with
    directory
    cells := s.cells.insert key { c with stream := some s.nextStream }
    openStreams := s.nextStream :: s.openStreams
    nextStream := s.nextStream + 1 }

/-- The store without a cell, whose stream is closed. The file of the cell is still there. -/
def without (s : CellStore) (key : List UInt8) (c : Cell) : CellStore :=
  let s := { s with cells := s.cells.erase key }
  (c.stream.map s.close).getD s

@[simp] theorem cells_without (s : CellStore) (key : List UInt8) (c : Cell) :
    (s.without key c).cells = s.cells.erase key := by
  rw [without]
  cases c.stream <;> rfl

@[simp] theorem directory_without (s : CellStore) (key : List UInt8) (c : Cell) :
    (s.without key c).directory = s.directory := by
  rw [without]
  cases c.stream <;> rfl

@[simp] theorem coding_without (s : CellStore) (key : List UInt8) (c : Cell) :
    (s.without key c).coding = s.coding := by
  rw [without]
  cases c.stream <;> rfl

@[simp] theorem nextStream_without (s : CellStore) (key : List UInt8) (c : Cell) :
    (s.without key c).nextStream = s.nextStream := by
  rw [without]
  cases c.stream <;> rfl

theorem isOpen_without : (s.without key c).IsOpen number ↔ s.IsOpen number ∧ c.stream ≠ some number
    := by
  rw [without]
  cases c.stream with
  | none => simp [IsOpen]
  | some closed =>
    simp only [Option.map_some, Option.getD_some, isOpen_close, ne_eq, Option.some.injEq]
    exact ⟨fun h => ⟨h.2, fun heq => h.1 heq.symm⟩, fun h => ⟨fun heq => h.2 heq.symm, h.1⟩⟩

@[simp] theorem isOpen_opened {d : Directory} :
    (s.opened key c d).IsOpen number ↔ number = s.nextStream ∨ s.IsOpen number :=
  List.mem_cons

theorem run_bind {α β : Type} (x : CellM α) (f : α → CellM β) (s : CellStore) :
    (x >>= f) s =
      match x s with
      | .ok v s => f v s
      | .error e s => .error e s := by
  cases h : x s <;> simp only [bind, EStateM.bind, h]

theorem run_map {α β : Type} (f : α → β) (x : CellM α) (s : CellStore) :
    (f <$> x) s =
      match x s with
      | .ok v s => .ok (f v) s
      | .error e s => .error e s := by
  cases h : x s <;> simp only [Functor.map, EStateM.map, h]

theorem run_get (s : CellStore) : (get : CellM CellStore) s = .ok s s := rfl

theorem run_modify (f : CellStore → CellStore) (s : CellStore) :
    (modify f : CellM Unit) s = .ok () (f s) := rfl

theorem create_eq (key : List UInt8) (s : CellStore) :
    create key s =
      if s.contains key then .ok false s
      else match s.directory.create (s.coding.text key) with
        | .ok (_, directory) =>
          .ok true { s with directory, cells := s.cells.insert key { name := s.coding.text key } }
        | .error e => .error (.file e) s := by
  simp only [create, run_bind, run_get]
  by_cases hkey : s.contains key
  · rw [if_pos hkey, if_pos hkey]
    rfl
  · rw [if_neg hkey, if_neg hkey, run_bind, onDirectory]
    cases s.directory.create (s.coding.text key) <;> rfl

theorem delete_eq (key : List UInt8) (s : CellStore) :
    delete key s =
      match s.cells[key]? with
      | none => .ok false s
      | some c =>
        if (s.directory.lookup? c.name).isSome then
          match s.directory.remove c.name with
          | .ok directory => .ok true { s.without key c with directory }
          | .error e => .error (.file e) (s.without key c)
        else .ok true (s.without key c) := by
  simp only [delete, run_bind, run_get]
  cases s.cells[key]? with
  | none => rfl
  | some c =>
    simp only [run_bind, run_modify, run_get]
    rw [show (c.stream.map _).getD _ = s.without key c from rfl, directory_without]
    by_cases hfile : (s.directory.lookup? c.name).isSome
    · rw [if_pos hfile, if_pos hfile, run_bind, onDirectory, directory_without]
      cases s.directory.remove c.name <;> rfl
    · rw [if_neg hfile, if_neg hfile]
      rfl

theorem openStream_eq (key : List UInt8) (writes : Bool)
    (f : String → Directory → Except FileError (Entry × Directory)) (s : CellStore) :
    openStream key writes f s =
      match s.cells[key]? with
      | none => .error (.unknownCell key) s
      | some c =>
        if s.IsBusy c then .error (.busy key) s
        else match f c.name s.directory with
          | .ok (entry, directory) =>
            .ok { number := s.nextStream, entry, writes } (s.opened key c directory)
          | .error e => .error (.file e) s := by
  simp only [openStream, run_bind, run_get]
  cases s.cells[key]? with
  | none => rfl
  | some c =>
    by_cases hbusy : s.IsBusy c
    · simp only [if_pos hbusy]
      rfl
    · simp only [if_neg hbusy, run_bind, onDirectory]
      cases f c.name s.directory <;> rfl

/-! ### Using a stream -/

theorem requireOpen_eq (stream : Stream) (s : CellStore) :
    requireOpen stream s =
      if s.IsOpen stream.number then .ok () s else .error .streamClosed s := by
  simp only [requireOpen, run_bind, run_get]
  by_cases hopen : s.IsOpen stream.number
  · rw [if_neg (not_not_intro hopen), if_pos hopen]
    rfl
  · rw [if_pos hopen, if_neg hopen]
    rfl

/-- What begins by asking for an open stream. -/
theorem requireOpen_bind {α : Type} (stream : Stream) (x : CellM α) (s : CellStore) :
    (requireOpen stream >>= fun _ => x) s =
      if s.IsOpen stream.number then x s else .error .streamClosed s := by
  rw [run_bind, requireOpen_eq]
  by_cases hopen : s.IsOpen stream.number
  · rw [if_pos hopen, if_pos hopen]
  · rw [if_neg hopen, if_neg hopen]

theorem read_eq (stream : Stream) (length : Nat) (s : CellStore) :
    read stream length s =
      if s.IsOpen stream.number then
        match stream.entry with
        | .folder => .error (.file .isADirectory) s
        | .file number =>
          let bytes := s.directory.readAt number stream.position length
          .ok (bytes, { stream with position := stream.position + bytes.length }) s
      else .error .streamClosed s := by
  rw [read, requireOpen_bind]
  cases stream.entry <;> rfl

theorem write_eq (stream : Stream) (bytes : List UInt8) (s : CellStore) :
    write stream bytes s =
      if s.IsOpen stream.number then
        match stream.entry with
        | .folder => .error (.file .isADirectory) s
        | .file number =>
          .ok { stream with position := stream.position + bytes.length }
            { s with directory := s.directory.writeAt number stream.position bytes }
      else .error .streamClosed s := by
  rw [write, requireOpen_bind]
  cases stream.entry <;> rfl

theorem flush_eq (stream : Stream) (s : CellStore) :
    flush stream s = if s.IsOpen stream.number then .ok () s else .error .streamClosed s :=
  requireOpen_eq stream s

theorem finish_eq (stream : Stream) (s : CellStore) :
    finish stream s =
      if stream.writes ∧ ¬ s.IsOpen stream.number then .error .streamClosed s
      else .ok () (s.close stream.number) := by
  cases hwrites : stream.writes with
  | false => simp [finish, hwrites, run_modify]
  | true =>
    rw [finish, if_pos hwrites, requireOpen_bind]
    by_cases hopen : s.IsOpen stream.number
    · rw [if_pos hopen, if_neg fun h => h.2 hopen]
      rfl
    · rw [if_neg hopen, if_pos ⟨rfl, hopen⟩]

/-! ### Whole cells -/

/-- The stream that reads a cell is closed again, also if there is a folder in place of the file. -/
theorem readAll_eq (key : List UInt8) (s : CellStore) :
    readAll key s =
      match s.cells[key]? with
      | none => .error (.unknownCell key) s
      | some c =>
        if s.IsBusy c then .error (.busy key) s
        else
          let after := (s.opened key c s.directory).close s.nextStream
          match s.directory.openEntry c.name with
          | .ok (.file number) => .ok (s.directory.bytes number) after
          | .ok .folder => .error (.file .isADirectory) after
          | .error e => .error (.file e) s := by
  rw [readAll, run_bind, openReader, openStream_eq]
  cases s.cells[key]? with
  | none => rfl
  | some c =>
    dsimp only
    by_cases hbusy : s.IsBusy c
    · rw [if_pos hbusy, if_pos hbusy]
    · rw [if_neg hbusy, if_neg hbusy]
      cases s.directory.openEntry c.name with
      | error e => rfl
      | ok entry => cases entry <;> rfl

/-- The stream that writes a cell is open all the time, so that only the file can fail. -/
theorem writeAll_eq (key bytes : List UInt8) (s : CellStore) :
    writeAll key bytes s =
      match s.cells[key]? with
      | none => .error (.unknownCell key) s
      | some c =>
        if s.IsBusy c then .error (.busy key) s
        else match s.directory.create c.name with
          | .ok (number, directory) =>
            .ok () ((s.opened key c (directory.writeAt number 0 bytes)).close s.nextStream)
          | .error e => .error (.file e) s := by
  rw [writeAll, run_bind, openWriter, openStream_eq]
  cases s.cells[key]? with
  | none => rfl
  | some c =>
    dsimp only
    by_cases hbusy : s.IsBusy c
    · rw [if_pos hbusy, if_pos hbusy]
    · rw [if_neg hbusy, if_neg hbusy]
      cases s.directory.create c.name with
      | error e => rfl
      | ok made =>
        obtain ⟨number, directory⟩ := made
        have hopen (directory : Directory) :
            (s.opened key c directory).IsOpen s.nextStream := isOpen_opened.2 (.inl rfl)
        simp only [Except.map, run_bind, write_eq, if_pos (hopen directory)]
        rw [finish_eq, if_neg fun h => h.2 (hopen (directory.writeAt number 0 bytes))]
        rfl

end CellStore

end BytecodeKernel
