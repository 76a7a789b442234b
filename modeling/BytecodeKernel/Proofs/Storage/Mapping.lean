import BytecodeKernel.Proofs.Storage.Operations
import Mathlib.Data.List.Nodup
/-!
A store as a map. Whatever is asked of a store by key, it answers as a finite map from keys to bytes
would, and its directory holds one file for each key of the map. All that the store has of its own,
the table of its cells, can be read off the names of these files. So it makes no difference if the
store is opened anew.
-/

namespace BytecodeKernel

/-- Cells by their keys. -/
abbrev CellMap := Std.TreeMap (List UInt8) (List UInt8)

/-! ### Directories -/

/-- What is relied on of the file system: the texts of short keys can be names of files. -/
def Directory.TakesKeys (d : Directory) : Prop :=
  ∀ key : List UInt8, 1 ≤ key.length → key.length ≤ 127 → d.refusal? (Hex.text key) = none

/-- A directory holds a file for each key of the map, named by its text, and nothing else. -/
structure Directory.Holds (d : Directory) (m : CellMap) : Prop where
  takes : d.TakesKeys
  nonempty : [] ∉ m
  file : ∀ key bytes, m[key]? = some bytes →
    ∃ n : Nat, d.entries[Hex.text key]? = some (.file n) ∧ d.bytes n = bytes
  named : ∀ name ∈ d.entries, ∃ key ∈ m, name = Hex.text key
  numbered : ∀ (name : String) (n : Nat), d.entries[name]? = some (.file n) → n < d.nextFile
  apart : ∀ (a b : String) (n : Nat), d.entries[a]? = some (.file n) →
    d.entries[b]? = some (.file n) → a = b

namespace Directory

variable {d : Directory} {m : CellMap} {key bytes : List UInt8} {n : Nat}

/-- Names of up to 255 bytes are long enough. -/
theorem takesKeys_empty : ({} : Directory).TakesKeys :=
  fun _ _ hlong => nameError?_text hlong

theorem holds_empty {refusal? : String → Option FileError}
    (h : ({ refusal? } : Directory).TakesKeys) : ({ refusal? } : Directory).Holds {} where
  takes := h
  nonempty := by simp
  file key bytes h := by simp at h
  named name h := by simp at h
  numbered name n h := by simp at h
  apart a b n h := by simp at h

theorem lookup?_text (hkey : key ≠ []) (d : Directory) :
    d.lookup? (Hex.text key) = d.entries[Hex.text key]? := by
  rw [lookup?, if_neg (not_isReserved_text hkey)]

theorem Holds.lookup? (h : d.Holds m) (hm : m[key]? = some bytes) :
    ∃ n, d.lookup? (Hex.text key) = some (.file n) ∧ d.entries[Hex.text key]? = some (.file n) ∧
      d.bytes n = bytes := by
  obtain ⟨n, hentry, hbytes⟩ := h.file key bytes hm
  have hkey : key ≠ [] := by
    rintro rfl
    exact h.nonempty (Std.TreeMap.mem_iff_isSome_getElem?.2 (hm ▸ rfl))
  exact ⟨n, (lookup?_text hkey d).trans hentry, hentry, hbytes⟩

theorem Holds.load (h : d.Holds m) (hm : m[key]? = some bytes) :
    d.load (Hex.text key) = .ok bytes := by
  obtain ⟨n, hlookup, -, rfl⟩ := h.lookup? hm
  simp [Directory.load, openEntry, hlookup, bind, Except.bind, pure, Except.pure]

theorem Holds.no_entry (h : d.Holds m) (hkey : key ∉ m) : Hex.text key ∉ d.entries := by
  intro hmem
  obtain ⟨other, hother, heq⟩ := h.named _ hmem
  exact hkey (Hex.text_injective heq ▸ hother)

/-- The directory with a new file, which is empty. -/
def added (d : Directory) (name : String) : Directory :=
  { d with
    entries := d.entries.insert name (.file d.nextFile)
    contents := d.contents.insert d.nextFile []
    nextFile := d.nextFile + 1 }

theorem Holds.create_text (h : d.Holds m) (hkey : key ∉ m) (hshort : 1 ≤ key.length)
    (hlong : key.length ≤ 127) :
    d.create (Hex.text key) = .ok (d.nextFile, d.added (Hex.text key)) := by
  have hlookup : d.lookup? (Hex.text key) = none := by
    rw [lookup?_text (List.ne_nil_of_length_pos hshort),
      Std.TreeMap.getElem?_eq_none (h.no_entry hkey)]
  simp only [create, hlookup, h.takes key hshort hlong]
  rfl

/-- A new file for a new key. -/
theorem Holds.added (h : d.Holds m) (hne : key ≠ []) :
    (d.added (Hex.text key)).Holds (m.insert key []) where
  takes := h.takes
  nonempty := by simpa [hne] using h.nonempty
  file other bytes hother := by
    by_cases heq : key = other
    · subst heq
      refine ⟨d.nextFile, by simp [Directory.added], ?_⟩
      simpa [Directory.added, Directory.bytes, Std.TreeMap.getElem?_insert] using hother
    · have htext : Hex.text key ≠ Hex.text other := fun h => heq (Hex.text_injective h)
      obtain ⟨n, hentry, hbytes⟩ := h.file other bytes
        (by simpa [Std.TreeMap.getElem?_insert, heq] using hother)
      refine ⟨n, by simpa [Directory.added, Std.TreeMap.getElem?_insert, htext] using hentry, ?_⟩
      have hlt := h.numbered _ n hentry
      simpa [Directory.added, Directory.bytes, Std.TreeMap.getD_insert, Nat.ne_of_gt hlt]
        using hbytes
  named name hname := by
    rcases Std.TreeMap.mem_insert.1 hname with heq | hname
    · exact ⟨key, by simp, (Std.compare_eq_iff_eq.1 heq).symm⟩
    · obtain ⟨other, hother, rfl⟩ := h.named name hname
      exact ⟨other, by simp [hother], rfl⟩
  numbered name n hentry := by
    simp only [Directory.added, Std.TreeMap.getElem?_insert] at hentry ⊢
    split at hentry
    · cases hentry
      exact Nat.lt_succ_self _
    · exact Nat.lt_succ_of_lt (h.numbered name n hentry)
  apart a b n ha hb := by
    -- The new number is none of those that files have already.
    simp only [Directory.added, Std.TreeMap.getElem?_insert, Std.compare_eq_iff_eq] at ha hb
    split at ha <;> split at hb
    · simp_all
    · cases ha
      exact absurd (h.numbered b _ hb) (Nat.lt_irrefl _)
    · cases hb
      exact absurd (h.numbered a _ ha) (Nat.lt_irrefl _)
    · exact h.apart a b n ha hb

/-- The bytes of one file are replaced. -/
theorem Holds.replace (h : d.Holds m) {made : Directory} (hkey : key ∈ m)
    (hentry : d.entries[Hex.text key]? = some (.file n)) (hentries : made.entries = d.entries)
    (hnumber : made.nextFile = d.nextFile) (hrefusal : made.refusal? = d.refusal?)
    (hbytes : ∀ k, made.bytes k = if n = k then bytes else d.bytes k) :
    made.Holds (m.insert key bytes) where
  takes other hshort hlong := by rw [hrefusal, h.takes other hshort hlong]
  nonempty hmem := by
    rcases Std.TreeMap.mem_insert.1 hmem with heq | hmem
    · exact h.nonempty (Std.compare_eq_iff_eq.1 heq ▸ hkey)
    · exact h.nonempty hmem
  file other old hother := by
    rw [hentries]
    by_cases heq : key = other
    · subst heq
      refine ⟨n, hentry, ?_⟩
      rw [hbytes, if_pos rfl]
      simpa [Std.TreeMap.getElem?_insert] using hother
    · obtain ⟨number, hnumber, hold⟩ := h.file other old
        (by simpa [Std.TreeMap.getElem?_insert, heq] using hother)
      refine ⟨number, hnumber, ?_⟩
      have hne : n ≠ number := by
        rintro rfl
        exact heq (Hex.text_injective (h.apart _ _ _ hentry hnumber))
      rw [hbytes, if_neg hne, hold]
  named name hname := by
    obtain ⟨other, hother, rfl⟩ := h.named name (hentries ▸ hname)
    exact ⟨other, Std.TreeMap.mem_insert.2 (.inr hother), rfl⟩
  numbered := by
    rw [hentries, hnumber]
    exact h.numbered
  apart := by
    rw [hentries]
    exact h.apart

/-- A file that is emptied and then written from its beginning has the bytes that were written. -/
theorem bytes_writeAt_emptied (d : Directory) (n : Nat) (bytes : List UInt8) (k : Nat) :
    ((d.setBytes n []).writeAt n 0 bytes).bytes k = if n = k then bytes else d.bytes k := by
  rw [writeAt]
  by_cases hbytes : bytes = []
  · rw [if_pos hbytes, bytes_setBytes, hbytes]
  · rw [if_neg hbytes, bytes_setBytes, bytes_setBytes, bytes_setBytes, if_pos rfl]
    by_cases hk : n = k
    · simp [if_pos hk, List.rightpad]
    · rw [if_neg hk, if_neg hk, if_neg hk]

theorem Holds.overwrite (h : d.Holds m) (hkey : key ∈ m)
    (hentry : d.entries[Hex.text key]? = some (.file n)) (bytes : List UInt8) :
    ((d.setBytes n []).writeAt n 0 bytes).Holds (m.insert key bytes) := by
  refine h.replace hkey hentry ?_ ?_ ?_ (bytes_writeAt_emptied d n bytes) <;>
  · rw [writeAt]
    split <;> rfl

theorem Holds.remove_text (h : d.Holds m) (hm : m[key]? = some bytes) :
    d.remove (Hex.text key) = .ok { d with entries := d.entries.erase (Hex.text key) } := by
  obtain ⟨n, hlookup, -⟩ := h.lookup? hm
  simp [Directory.remove, openEntry, hlookup, bind, Except.bind, pure, Except.pure]

/-- The name of a key is taken away. -/
theorem Holds.erase (h : d.Holds m) (key : List UInt8) :
    ({ d with entries := d.entries.erase (Hex.text key) } : Directory).Holds (m.erase key) where
  takes := h.takes
  nonempty hmem := h.nonempty (Std.TreeMap.mem_of_mem_erase hmem)
  file other old hother := by
    have hne : key ≠ other := by
      rintro rfl
      simp at hother
    obtain ⟨number, hnumber, hbytes⟩ := h.file other old
      (by simpa [Std.TreeMap.getElem?_erase, hne] using hother)
    have htext : Hex.text key ≠ Hex.text other := fun h => hne (Hex.text_injective h)
    exact ⟨number, by simpa [Std.TreeMap.getElem?_erase, htext] using hnumber, hbytes⟩
  named name hname := by
    obtain ⟨hne, hname⟩ := Std.TreeMap.mem_erase.1 hname
    obtain ⟨other, hother, rfl⟩ := h.named name hname
    refine ⟨other, Std.TreeMap.mem_erase.2 ⟨?_, hother⟩, rfl⟩
    rintro heq
    exact hne (Std.compare_eq_iff_eq.2 (congrArg Hex.text (Std.compare_eq_iff_eq.1 heq)))
  numbered name number hnumber := by
    simp only [Std.TreeMap.getElem?_erase] at hnumber
    split at hnumber
    · cases hnumber
    · exact h.numbered name number hnumber
  apart a b number ha hb := by
    simp only [Std.TreeMap.getElem?_erase] at ha hb
    split at ha <;> split at hb <;> first | contradiction | exact h.apart a b number ha hb

/-- The names are the texts of the keys. -/
theorem Holds.names_perm (h : d.Holds m) : d.names.Perm (m.keys.map Hex.text) := by
  have hkeys : (m.keys.map Hex.text).Nodup :=
    List.Nodup.map (fun _ _ => Hex.text_injective) Std.TreeMap.nodup_keys
  refine (List.perm_ext_iff_of_nodup Std.TreeMap.nodup_keys hkeys).2 fun name => ?_
  rw [Std.TreeMap.mem_keys, List.mem_map]
  constructor
  · intro hname
    obtain ⟨key, hkey, rfl⟩ := h.named name hname
    exact ⟨key, Std.TreeMap.mem_keys.2 hkey, rfl⟩
  · rintro ⟨key, hkey, rfl⟩
    obtain ⟨bytes, hbytes⟩ := Option.isSome_iff_exists.1
      (Std.TreeMap.mem_iff_isSome_getElem?.1 (Std.TreeMap.mem_keys.1 hkey))
    obtain ⟨n, hentry, -⟩ := h.file key bytes hbytes
    exact Std.TreeMap.mem_iff_isSome_getElem?.2 (hentry ▸ rfl)

end Directory

namespace CellStore

variable {coding : Coding}

/-! ### Opening anew -/

/-- Files that are named by the texts of keys make the cells of these keys. -/
theorem getElem?_foldl_addCell (hcoding : coding.Lawful) {listed : List (String × Entry)}
    (hlisted : ∀ e ∈ listed, ∃ key n, e = (Hex.text key, .file n)) (key : List UInt8)
    (cells : Std.TreeMap (List UInt8) Cell) :
    (listed.foldl (addCell coding) cells)[key]? =
      if Hex.text key ∈ listed.map (·.1) then some { name := Hex.text key } else cells[key]? := by
  induction listed generalizing cells with
  | nil => rfl
  | cons e rest ih =>
    obtain ⟨other, n, rfl⟩ := hlisted e List.mem_cons_self
    rw [List.foldl_cons, ih fun e he => hlisted e (List.mem_cons_of_mem _ he)]
    simp only [addCell, hcoding.decode?_hex, Std.TreeMap.getElem?_insert, List.map_cons,
      List.mem_cons]
    by_cases heq : other = key
    · subst heq
      simp
    · have hne : Hex.text key ≠ Hex.text other := fun h => heq (Hex.text_injective h).symm
      rw [if_neg (Std.compare_eq_iff_eq.not.2 heq)]
      exact if_congr (or_iff_right hne).symm rfl rfl

/-- The table of the cells can be read off the directory. -/
theorem getElem?_cellsOf (hcoding : coding.Lawful) {d : Directory} {m : CellMap} (h : d.Holds m)
    (key : List UInt8) :
    (cellsOf coding d)[key]? = if key ∈ m then some { name := Hex.text key } else none := by
  have hlisted : ∀ e ∈ d.entries.toList, ∃ key n, e = (Hex.text key, .file n) := by
    rintro ⟨name, entry⟩ he
    have hentry := Std.TreeMap.mem_toList_iff_getElem?_eq_some.1 he
    obtain ⟨key, hkey, rfl⟩ := h.named name (Std.TreeMap.mem_iff_isSome_getElem?.2 (hentry ▸ rfl))
    obtain ⟨bytes, hbytes⟩ :=
      Option.isSome_iff_exists.1 (Std.TreeMap.mem_iff_isSome_getElem?.1 hkey)
    obtain ⟨n, hfile, -⟩ := h.file key bytes hbytes
    exact ⟨key, n, by rw [Option.some.inj (hentry.symm.trans hfile)]⟩
  rw [cellsOf_eq_foldl, getElem?_foldl_addCell hcoding hlisted]
  have hnames : Hex.text key ∈ d.entries.toList.map (·.1) ↔ key ∈ m := by
    rw [Std.TreeMap.map_fst_toList_eq_keys]
    refine (h.names_perm.mem_iff).trans ?_
    rw [List.mem_map]
    constructor
    · rintro ⟨other, hother, heq⟩
      exact Hex.text_injective heq ▸ Std.TreeMap.mem_keys.1 hother
    · exact fun hkey => ⟨key, Std.TreeMap.mem_keys.2 hkey, rfl⟩
  exact if_congr hnames rfl rfl

/-! ### Calls -/

/-- What is asked of a store by key. -/
inductive Call where
  | create (key : List UInt8)
  | writeAll (key bytes : List UInt8)
  | readAll (key : List UInt8)
  | delete (key : List UInt8)
  | contains (key : List UInt8)

inductive Answer where
  | told (b : Bool)
  | done
  | bytes (bytes : List UInt8)
  | refused (e : StorageError)
deriving DecidableEq

/-- The answer to a call, and the store after it. -/
def answered {α : Type} (f : α → Answer) : EStateM.Result StorageError CellStore α →
    Answer × CellStore
  | .ok v s => (f v, s)
  | .error e s => (.refused e, s)

def serve (s : CellStore) : Call → Answer × CellStore
  | .create key => answered .told (create key s)
  | .writeAll key bytes => answered (fun _ => .done) (writeAll key bytes s)
  | .readAll key => answered .bytes (readAll key s)
  | .delete key => answered .told (delete key s)
  | .contains key => (.told (s.contains key), s)

/-- A call to a store, or the store is opened anew. -/
inductive Step where
  | call (c : Call)
  | reopen

/-- The answers to calls, and the store after them. -/
def serveAll : List Step → CellStore → List Answer × CellStore
  | [], s => ([], s)
  | .reopen :: rest, s => serveAll rest s.reopen
  | .call c :: rest, s =>
    let later := serveAll rest (s.serve c).2
    ((s.serve c).1 :: later.1, later.2)

/-- The calls among the steps. -/
def callsOf (steps : List Step) : List Call :=
  steps.filterMap fun
    | .call c => some c
    | .reopen => none

end CellStore

namespace CellMap

open CellStore

/-- What a map answers, and the map after it. -/
def serve (m : CellMap) : Call → Answer × CellMap
  | .create key => if key ∈ m then (.told false, m) else (.told true, m.insert key [])
  | .writeAll key bytes =>
    if key ∈ m then (.done, m.insert key bytes) else (.refused (.unknownCell key), m)
  | .readAll key =>
    match m[key]? with
    | some bytes => (.bytes bytes, m)
    | none => (.refused (.unknownCell key), m)
  | .delete key => if key ∈ m then (.told true, m.erase key) else (.told false, m)
  | .contains key => (.told (m.contains key), m)

def serveAll : List Call → CellMap → List Answer × CellMap
  | [], m => ([], m)
  | c :: rest, m =>
    let later := serveAll rest (serve m c).2
    ((serve m c).1 :: later.1, later.2)

end CellMap

namespace CellStore

/-! ### A store in step with a map -/

/-- No stream is open, the cells are those of the map, and the directory holds their files. -/
structure Mirrors (s : CellStore) (m : CellMap) : Prop where
  lawful : s.coding.Lawful
  closed : s.openStreams = []
  cells : ∀ key, (s.cells[key]?).map (·.name) = if key ∈ m then some (Hex.text key) else none
  holds : s.directory.Holds m

variable {s : CellStore} {m : CellMap} {key bytes : List UInt8} {c : Cell}

theorem mirrors_empty {coding : Coding} {refusal? : String → Option FileError}
    (hcoding : coding.Lawful) (htakes : ({ refusal? } : Directory).TakesKeys) :
    (ofDirectory coding { refusal? }).Mirrors {} where
  lawful := hcoding
  closed := rfl
  cells key := by
    rw [ofDirectory, getElem?_cellsOf hcoding (Directory.holds_empty htakes)]
    simp
  holds := Directory.holds_empty htakes

theorem Mirrors.reopen (h : s.Mirrors m) : s.reopen.Mirrors m where
  lawful := h.lawful
  closed := h.closed
  cells key := by
    rw [CellStore.reopen, getElem?_cellsOf h.lawful h.holds]
    split <;> rfl
  holds := h.holds

theorem Mirrors.cell (h : s.Mirrors m) (hkey : key ∈ m) :
    ∃ c, s.cells[key]? = some c ∧ c.name = Hex.text key ∧ ¬ s.IsBusy c := by
  have hcell := h.cells key
  rw [if_pos hkey, Option.map_eq_some_iff] at hcell
  obtain ⟨c, hc, hname⟩ := hcell
  refine ⟨c, hc, hname, ?_⟩
  rintro ⟨stream, -, hopen⟩
  rw [IsOpen, h.closed] at hopen
  exact List.not_mem_nil hopen

theorem Mirrors.no_cell (h : s.Mirrors m) (hkey : key ∉ m) : s.cells[key]? = none := by
  have hcell := h.cells key
  rwa [if_neg hkey, Option.map_eq_none_iff] at hcell

theorem Mirrors.contains_eq (h : s.Mirrors m) (key : List UInt8) :
    s.contains key = m.contains key := by
  rw [CellStore.contains, Std.TreeMap.contains_eq_isSome_getElem?]
  by_cases hkey : key ∈ m
  · obtain ⟨c, hc, -⟩ := h.cell hkey
    rw [hc, Std.TreeMap.contains_iff_mem.2 hkey]
    rfl
  · rw [h.no_cell hkey]
    exact (Bool.not_eq_true _ ▸ fun h => hkey (Std.TreeMap.contains_iff_mem.1 h) :
      m.contains key = false).symm

/-- The store is in step again when its stream is closed. -/
theorem Mirrors.opened_close (h : s.Mirrors m) {d : Directory} {after : CellMap}
    (hname : c.name = Hex.text key) (hkeys : ∀ other, other ∈ after ↔ other ∈ m) (hkey : key ∈ m)
    (hd : d.Holds after) : ((s.opened key c d).close s.nextStream).Mirrors after where
  lawful := h.lawful
  closed := by simp [close, opened, h.closed]
  cells other := by
    rw [cells_close, opened, Std.TreeMap.getElem?_insert]
    by_cases heq : key = other
    · subst heq
      rw [if_pos (Std.compare_eq_iff_eq.2 rfl), if_pos ((hkeys key).2 hkey)]
      exact congrArg some hname
    · rw [if_neg (Std.compare_eq_iff_eq.not.2 heq), h.cells other]
      exact if_congr (hkeys other).symm rfl rfl
  holds := hd

theorem Mirrors.create (h : s.Mirrors m) (hshort : 1 ≤ key.length) (hlong : key.length ≤ 127) :
    (s.serve (.create key)).1 = (CellMap.serve m (.create key)).1 ∧
      (s.serve (.create key)).2.Mirrors (CellMap.serve m (.create key)).2 := by
  rw [CellStore.serve, CellMap.serve, create_eq, h.contains_eq]
  by_cases hkey : key ∈ m
  · rw [if_pos hkey, if_pos (Std.TreeMap.contains_iff_mem.2 hkey)]
    exact ⟨rfl, h⟩
  · rw [if_neg hkey, if_neg (mt Std.TreeMap.contains_iff_mem.1 hkey), h.lawful.text_eq,
      h.holds.create_text hkey hshort hlong]
    refine ⟨rfl, h.lawful, h.closed, fun other => ?_,
      h.holds.added (List.ne_nil_of_length_pos hshort)⟩
    simp only [answered, Std.TreeMap.getElem?_insert, Std.TreeMap.mem_insert,
      Std.compare_eq_iff_eq]
    by_cases heq : key = other
    · subst heq
      simp
    · rw [if_neg heq, h.cells other]
      exact if_congr (or_iff_right heq).symm rfl rfl

theorem Mirrors.writeAll (h : s.Mirrors m) (key bytes : List UInt8) :
    (s.serve (.writeAll key bytes)).1 = (CellMap.serve m (.writeAll key bytes)).1 ∧
      (s.serve (.writeAll key bytes)).2.Mirrors (CellMap.serve m (.writeAll key bytes)).2 := by
  rw [CellStore.serve, CellMap.serve, writeAll_eq]
  by_cases hkey : key ∈ m
  · obtain ⟨c, hc, hname, hbusy⟩ := h.cell hkey
    obtain ⟨old, hold⟩ := Option.isSome_iff_exists.1 (Std.TreeMap.mem_iff_isSome_getElem?.1 hkey)
    obtain ⟨n, hlookup, hentry, -⟩ := h.holds.lookup? hold
    have hmade : s.directory.create (Hex.text key) = .ok (n, s.directory.setBytes n []) := by
      simp only [Directory.create, hlookup]
    have hkeys (other : List UInt8) : other ∈ m.insert key bytes ↔ other ∈ m := by
      rw [Std.TreeMap.mem_insert, Std.compare_eq_iff_eq]
      exact ⟨fun hmem => hmem.elim (fun heq => heq ▸ hkey) id, .inr⟩
    rw [hc, if_pos hkey]
    simp only [if_neg hbusy, hname, hmade]
    refine ⟨rfl, h.opened_close hname hkeys hkey ?_⟩
    exact h.holds.overwrite hkey hentry bytes
  · rw [if_neg hkey, h.no_cell hkey]
    exact ⟨rfl, h⟩

theorem Mirrors.readAll (h : s.Mirrors m) (key : List UInt8) :
    (s.serve (.readAll key)).1 = (CellMap.serve m (.readAll key)).1 ∧
      (s.serve (.readAll key)).2.Mirrors (CellMap.serve m (.readAll key)).2 := by
  rw [CellStore.serve, CellMap.serve, readAll_eq]
  cases hm : m[key]? with
  | none =>
    have hkey : key ∉ m := fun hkey => by
      rw [Std.TreeMap.mem_iff_isSome_getElem?, hm] at hkey
      cases hkey
    rw [h.no_cell hkey]
    exact ⟨rfl, h⟩
  | some bytes =>
    have hkey : key ∈ m := Std.TreeMap.mem_iff_isSome_getElem?.2 (hm ▸ rfl)
    obtain ⟨c, hc, hname, hbusy⟩ := h.cell hkey
    obtain ⟨n, hlookup, -, hbytes⟩ := h.holds.lookup? hm
    have hentry : s.directory.openEntry (Hex.text key) = .ok (.file n) := by
      simp only [Directory.openEntry, hlookup]
    rw [hc]
    simp only [if_neg hbusy, hname, hentry]
    exact ⟨congrArg Answer.bytes hbytes, h.opened_close hname (fun _ => .rfl) hkey h.holds⟩

theorem Mirrors.delete (h : s.Mirrors m) (key : List UInt8) :
    (s.serve (.delete key)).1 = (CellMap.serve m (.delete key)).1 ∧
      (s.serve (.delete key)).2.Mirrors (CellMap.serve m (.delete key)).2 := by
  rw [CellStore.serve, CellMap.serve, delete_eq]
  by_cases hkey : key ∈ m
  · obtain ⟨c, hc, hname, hbusy⟩ := h.cell hkey
    obtain ⟨old, hold⟩ := Option.isSome_iff_exists.1 (Std.TreeMap.mem_iff_isSome_getElem?.1 hkey)
    obtain ⟨n, hlookup, -⟩ := h.holds.lookup? hold
    rw [hc, if_pos hkey]
    simp only [hname, hlookup, Option.isSome_some, if_true, h.holds.remove_text hold]
    refine ⟨rfl, by simpa [answered] using h.lawful,
      List.eq_nil_iff_forall_not_mem.2 fun stream hopen => ?_, fun other => ?_,
      h.holds.erase key⟩
    · have hbefore := (isOpen_without.1 hopen).1
      rw [IsOpen, h.closed] at hbefore
      exact List.not_mem_nil hbefore
    · simp only [answered, cells_without, Std.TreeMap.getElem?_erase, Std.TreeMap.mem_erase,
        ne_eq, Std.compare_eq_iff_eq]
      by_cases heq : key = other
      · subst heq
        simp
      · rw [if_neg heq, h.cells other]
        exact if_congr (and_iff_right heq).symm rfl rfl
  · rw [h.no_cell hkey, if_neg hkey]
    exact ⟨rfl, h⟩

/-- Each call is answered as the map answers it, and leaves the store in step with the map. -/
theorem Mirrors.serve (h : s.Mirrors m) (call : Call)
    (hcreate : ∀ key, call = .create key → 1 ≤ key.length ∧ key.length ≤ 127) :
    (s.serve call).1 = (CellMap.serve m call).1 ∧
      (s.serve call).2.Mirrors (CellMap.serve m call).2 := by
  cases call with
  | create key => exact h.create (hcreate key rfl).1 (hcreate key rfl).2
  | writeAll key bytes => exact h.writeAll key bytes
  | readAll key => exact h.readAll key
  | delete key => exact h.delete key
  | contains key => exact ⟨congrArg Answer.told (h.contains_eq key), h⟩

/-- A store answers all calls as a map does that knows nothing of a store's being opened anew, and
is in step with that map in the end. -/
theorem Mirrors.serveAll (h : s.Mirrors m) {steps : List Step}
    (hkeys : ∀ key, .create key ∈ callsOf steps → 1 ≤ key.length ∧ key.length ≤ 127) :
    (s.serveAll steps).1 = (CellMap.serveAll (callsOf steps) m).1 ∧
      (s.serveAll steps).2.Mirrors (CellMap.serveAll (callsOf steps) m).2 := by
  induction steps generalizing s m with
  | nil => exact ⟨rfl, h⟩
  | cons step rest ih =>
    cases step with
    | reopen => exact ih h.reopen hkeys
    | call c =>
      obtain ⟨hanswer, hafter⟩ := h.serve c fun key heq => hkeys key (heq ▸ List.mem_cons_self)
      obtain ⟨hanswers, hend⟩ := ih hafter fun key hmem => hkeys key (List.mem_cons_of_mem _ hmem)
      exact ⟨List.cons_eq_cons.2 ⟨hanswer, hanswers⟩, hend⟩

/-- A store that begins with an empty directory answers calls as a map from keys to bytes does,
however often it is opened anew in between. Its directory then holds one file for each key of the
map, named by the text of the key, with the bytes of that key. -/
theorem answers_eq_of_map {coding : Coding} (hcoding : coding.Lawful)
    {refusal? : String → Option FileError} (htakes : ({ refusal? } : Directory).TakesKeys)
    (steps : List Step)
    (hkeys : ∀ key, .create key ∈ callsOf steps → 1 ≤ key.length ∧ key.length ≤ 127) :
    let store := (ofDirectory coding { refusal? }).serveAll steps
    let map := CellMap.serveAll (callsOf steps) {}
    store.1 = map.1 ∧
      store.2.directory.names.Perm (map.2.keys.map Hex.text) ∧
      ∀ key bytes, map.2[key]? = some bytes →
        store.2.directory.load (Hex.text key) = .ok bytes := by
  obtain ⟨hanswers, hend⟩ := (mirrors_empty hcoding htakes).serveAll hkeys
  exact ⟨hanswers, hend.holds.names_perm, fun key bytes hm => hend.holds.load hm⟩

def diarySteps : List Step :=
  [.call (.create [1]), .call (.create [255, 2]), .call (.writeAll [1] [7, 8]), .reopen,
    .call (.create [1]), .call (.readAll [1]), .call (.writeAll [1] [9]), .call (.delete [255, 2]),
    .reopen, .call (.readAll [1]), .call (.readAll [255, 2]), .call (.contains [1])]

theorem answers_of_diarySteps :
    Coding.hex.Lawful ∧ ({} : Directory).TakesKeys ∧
      (∀ key, .create key ∈ callsOf diarySteps → 1 ≤ key.length ∧ key.length ≤ 127) ∧
      ((ofDirectory .hex {}).serveAll diarySteps).1 =
        [.told true, .told true, .done, .told false, .bytes [7, 8], .done, .told true, .bytes [9],
          .refused (.unknownCell [255, 2]), .told true] ∧
      ((ofDirectory .hex {}).serveAll diarySteps).2.directory.names.Perm ["01"] ∧
      ((ofDirectory .hex {}).serveAll diarySteps).2.directory.load "01" = .ok [9] := by
  have hkeys : ∀ key, .create key ∈ callsOf diarySteps → 1 ≤ key.length ∧ key.length ≤ 127 := by
    simp [callsOf, diarySteps]
  obtain ⟨hanswers, hnames, hload⟩ :=
    answers_eq_of_map Coding.lawful_hex Directory.takesKeys_empty diarySteps hkeys
  have hmap : (CellMap.serveAll (callsOf diarySteps) {}).1 =
      [.told true, .told true, .done, .told false, .bytes [7, 8], .done, .told true, .bytes [9],
        .refused (.unknownCell [255, 2]), .told true] := by decide +kernel
  have hkept : (CellMap.serveAll (callsOf diarySteps) {}).2.keys = [[1]] := by decide +kernel
  rw [hkept] at hnames
  exact ⟨Coding.lawful_hex, Directory.takesKeys_empty, hkeys, hanswers.trans hmap, hnames,
    hload [1] [9] (by decide +kernel)⟩

end CellStore

end BytecodeKernel
