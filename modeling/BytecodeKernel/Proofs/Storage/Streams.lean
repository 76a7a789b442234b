import BytecodeKernel.Proofs.Storage.Operations
import Mathlib.Data.List.Nodup
/-!
Streams of cells. A stream is open as long as its number is on the list of the store, and every
number is handed out once. The cell that a stream was opened for knows its number until the next
stream of the cell is opened, or the cell is gone, and neither happens while the stream is open but
for a deletion, which closes it. So a cell has one open stream at most, and a stream that was closed
is of no use to anyone: its number will never be on the list again.
-/

namespace BytecodeKernel.CellStore

variable {s : CellStore} {d : Directory} {key : List UInt8} {c : Cell} {number : Nat}

/-! ### Handles -/

/-- A stream that was handed out, and the key it was opened for. -/
structure Handle where
  key : List UInt8
  stream : Stream

/-- A store and the handles that it gave out, the oldest first. -/
structure Session where
  store : CellStore
  handles : List Handle := []

/-- What a client does with a stream it has. -/
inductive Use where
  | read (length : Nat)
  | write (bytes : List UInt8)
  | flush
  | finish
  | drop

/-- The stream after its use. -/
def Use.of (stream : Stream) : Use → CellM Stream
  | .read length => Prod.snd <$> CellStore.read stream length
  | .write bytes => CellStore.write stream bytes
  | .flush => (fun _ => stream) <$> CellStore.flush stream
  | .finish => (fun _ => stream) <$> CellStore.finish stream
  | .drop => (fun _ => stream) <$> modify (close · stream.number)

/-- What the clients of a store do with it, and with the handles they have. -/
inductive Act where
  | create (key : List UInt8)
  | delete (key : List UInt8)
  | openReader (key : List UInt8)
  | openWriter (key : List UInt8)
  | readAll (key : List UInt8)
  | writeAll (key bytes : List UInt8)
  | use (index : Nat) (u : Use)

namespace Session

/-- What is done with the store alone, successfully or not. -/
def apply {α : Type} (σ : Session) (x : CellM α) : Session :=
  match x σ.store with
  | .ok _ store | .error _ store => { σ with store }

/-- A stream is opened, and handed out if that succeeds. -/
def grant (σ : Session) (key : List UInt8) (x : CellM Stream) : Session :=
  match x σ.store with
  | .ok stream store => ⟨store, σ.handles ++ [⟨key, stream⟩]⟩
  | .error _ store => { σ with store }

/-- A handle is used, if there is one with this index. -/
def use (σ : Session) (index : Nat) (u : Use) : Session :=
  match σ.handles[index]? with
  | none => σ
  | some h =>
    match u.of h.stream σ.store with
    | .ok stream store => ⟨store, σ.handles.set index { h with stream }⟩
    | .error _ store => { σ with store }

def act (σ : Session) : Act → Session
  | .create key => σ.apply (CellStore.create key)
  | .delete key => σ.apply (CellStore.delete key)
  | .openReader key => σ.grant key (CellStore.openReader key)
  | .openWriter key => σ.grant key (CellStore.openWriter key)
  | .readAll key => σ.apply (CellStore.readAll key)
  | .writeAll key bytes => σ.apply (CellStore.writeAll key bytes)
  | .use index u => σ.use index u

def run (σ : Session) (acts : List Act) : Session :=
  acts.foldl act σ

/-- The handle is open, and it is one for this key. -/
def OpenFor (σ : Session) (key : List UInt8) (index : Nat) : Prop :=
  ∃ h, σ.handles[index]? = some h ∧ h.key = key ∧ σ.store.IsOpen h.stream.number

/-- The handle was given out, and its stream is closed. -/
def Stale (σ : Session) (index : Nat) : Prop :=
  ∃ h, σ.handles[index]? = some h ∧ ¬ σ.store.IsOpen h.stream.number

/-- The keys of all handles, with the numbers of their streams. -/
def tags (σ : Session) : List (List UInt8 × Nat) :=
  σ.handles.map fun h => (h.key, h.stream.number)

end Session

/-! ### Numbers of streams -/

/-- The numbers that were handed out are all different, and each open one is known to the cell of
its key and to no other cell. -/
structure Knows (s : CellStore) (tags : List (List UInt8 × Nat)) : Prop where
  numbered : ∀ tag ∈ tags, tag.2 < s.nextStream
  distinct : (tags.map (·.2)).Nodup
  issued : ∀ (key : List UInt8) (c : Cell) (n : Nat), s.cells[key]? = some c →
    c.stream = some n → n < s.nextStream
  apart : ∀ (a b : List UInt8) (c c' : Cell) (n : Nat), s.cells[a]? = some c →
    s.cells[b]? = some c' → c.stream = some n → c'.stream = some n → a = b
  known : ∀ n, s.IsOpen n → ∃ key c, (key, n) ∈ tags ∧ s.cells[key]? = some c ∧ c.stream = some n

/-- From one store to a later one no stream is opened that was there before. -/
structure Outlives (s t : CellStore) : Prop where
  counter : s.nextStream ≤ t.nextStream
  isOpen : ∀ n < s.nextStream, t.IsOpen n → s.IsOpen n

variable {t u : CellStore} {tags : List (List UInt8 × Nat)}

theorem Outlives.refl (s : CellStore) : s.Outlives s :=
  ⟨Nat.le_refl _, fun _ _ h => h⟩

theorem Outlives.trans (h : s.Outlives t) (h' : t.Outlives u) : s.Outlives u where
  counter := h.counter.trans h'.counter
  isOpen n hn hopen := h.isOpen n hn (h'.isOpen n (hn.trans_le h.counter) hopen)

/-- Nothing but the directory changes, or streams are closed. -/
theorem Knows.congr (h : s.Knows tags) (hcells : t.cells = s.cells)
    (hnext : t.nextStream = s.nextStream) (hopen : ∀ n, t.IsOpen n → s.IsOpen n) :
    t.Knows tags where
  numbered := hnext ▸ h.numbered
  distinct := h.distinct
  issued := by
    rw [hcells, hnext]
    exact h.issued
  apart := by
    rw [hcells]
    exact h.apart
  known n hn := by
    rw [hcells]
    exact h.known n (hopen n hn)

theorem Knows.close (h : s.Knows tags) (number : Nat) : (s.close number).Knows tags :=
  h.congr rfl rfl fun _ hn => ((isOpen_close s number _).1 hn).2

theorem outlives_close (s : CellStore) (number : Nat) : s.Outlives (s.close number) :=
  ⟨Nat.le_refl _, fun n _ hn => ((isOpen_close s number n).1 hn).2⟩

/-- A closed stream may as well never have been handed out. -/
theorem Knows.forget {tag : List UInt8 × Nat} (h : s.Knows (tags ++ [tag]))
    (hclosed : ¬ s.IsOpen tag.2) : s.Knows tags where
  numbered other hother := h.numbered other (List.mem_append_left _ hother)
  distinct := by
    have hdistinct := h.distinct
    rw [List.map_append] at hdistinct
    exact hdistinct.of_append_left
  issued := h.issued
  apart := h.apart
  known n hn := by
    obtain ⟨key, c, hmem, hc, hstream⟩ := h.known n hn
    rcases List.mem_append.1 hmem with hmem | hmem
    · exact ⟨key, c, hmem, hc, hstream⟩
    · cases List.mem_singleton.1 hmem
      exact absurd hn hclosed

theorem getElem?_insert_eq_some {other : List UInt8} {c' : Cell} :
    (s.cells.insert key c)[other]? = some c' ↔
      key = other ∧ c = c' ∨ key ≠ other ∧ s.cells[other]? = some c' := by
  rw [Std.TreeMap.getElem?_insert]
  by_cases heq : key = other
  · simp [heq]
  · rw [if_neg (Std.compare_eq_iff_eq.not.2 heq)]
    simp [heq]

/-- The cells that a directory makes have no streams yet. -/
theorem stream_of_cellsOf {coding : Coding} (hc : (cellsOf coding d)[key]? = some c) :
    c.stream = none := by
  rw [cellsOf_eq_foldl] at hc
  suffices hall : ∀ (listed : List (String × Entry)) (cells : Std.TreeMap (List UInt8) Cell),
      (∀ (key : List UInt8) (c : Cell), cells[key]? = some c → c.stream = none) →
      ∀ (key : List UInt8) (c : Cell), (listed.foldl (addCell coding) cells)[key]? = some c →
        c.stream = none from
    hall d.entries.toList {} (by simp) key c hc
  intro listed
  induction listed with
  | nil => exact fun _ h => h
  | cons e rest ih =>
    intro cells h
    refine ih (addCell coding cells e) fun key c hc => ?_
    rw [addCell] at hc
    split at hc
    · rw [Std.TreeMap.getElem?_insert] at hc
      split at hc
      · cases hc
        rfl
      · exact h key c hc
    · exact h key c hc

/-- A cell that no open stream belongs to is replaced by one without a stream. -/
theorem Knows.insert (h : s.Knows tags) (hfree : s.IsReachable key) (d : Directory)
    (name : String) :
    ({ s with directory := d, cells := s.cells.insert key { name } } : CellStore).Knows tags where
  numbered := h.numbered
  distinct := h.distinct
  issued a x n hx hstream := by
    rcases getElem?_insert_eq_some.1 hx with ⟨-, rfl⟩ | ⟨-, hx⟩
    · cases hstream
    · exact h.issued a x n hx hstream
  apart a b x y n hx hy hxn hyn := by
    rcases getElem?_insert_eq_some.1 hx with ⟨-, rfl⟩ | ⟨-, hx⟩
    · cases hxn
    · rcases getElem?_insert_eq_some.1 hy with ⟨-, rfl⟩ | ⟨-, hy⟩
      · cases hyn
      · exact h.apart a b x y n hx hy hxn hyn
  known n hn := by
    obtain ⟨other, x, hmem, hx, hstream⟩ := h.known n hn
    have hne : key ≠ other := by
      rintro rfl
      exact hfree x hx ⟨n, hstream, hn⟩
    exact ⟨other, x, hmem, getElem?_insert_eq_some.2 (.inr ⟨hne, hx⟩), hstream⟩

/-- A stream of a cell is opened that has none, with the next number. -/
theorem Knows.opened (h : s.Knows tags) (hc : s.cells[key]? = some c) (hbusy : ¬ s.IsBusy c)
    (d : Directory) : (s.opened key c d).Knows (tags ++ [(key, s.nextStream)]) where
  numbered tag htag := by
    rcases List.mem_append.1 htag with htag | htag
    · exact Nat.lt_succ_of_lt (h.numbered tag htag)
    · cases List.mem_singleton.1 htag
      exact Nat.lt_succ_self _
  distinct := by
    rw [List.map_append]
    refine h.distinct.append (List.nodup_singleton _) fun n hn hlast => ?_
    obtain ⟨tag, htag, rfl⟩ := List.mem_map.1 hn
    exact absurd (List.mem_singleton.1 hlast) (Nat.ne_of_lt (h.numbered tag htag))
  issued a x n hx hstream := by
    rcases getElem?_insert_eq_some.1 hx with ⟨-, rfl⟩ | ⟨-, hx⟩
    · cases hstream
      exact Nat.lt_succ_self _
    · exact Nat.lt_succ_of_lt (h.issued a x n hx hstream)
  apart a b x y n hx hy hxn hyn := by
    -- The new number is none of those that cells have already.
    rcases getElem?_insert_eq_some.1 hx with ⟨ha, rfl⟩ | ⟨-, hx⟩ <;>
      rcases getElem?_insert_eq_some.1 hy with ⟨hb, rfl⟩ | ⟨-, hy⟩
    · exact ha.symm.trans hb
    · cases hxn
      exact absurd (h.issued b y _ hy hyn) (Nat.lt_irrefl _)
    · cases hyn
      exact absurd (h.issued a x _ hx hxn) (Nat.lt_irrefl _)
    · exact h.apart a b x y n hx hy hxn hyn
  known n hn := by
    rcases isOpen_opened.1 hn with rfl | hn
    · exact ⟨key, { c with stream := some s.nextStream },
        List.mem_append_right _ (List.mem_singleton_self _),
        getElem?_insert_eq_some.2 (.inl ⟨rfl, rfl⟩), rfl⟩
    · obtain ⟨other, x, hmem, hx, hstream⟩ := h.known n hn
      have hne : key ≠ other := by
        rintro rfl
        cases hc.symm.trans hx
        exact hbusy ⟨n, hstream, hn⟩
      exact ⟨other, x, List.mem_append_left _ hmem,
        getElem?_insert_eq_some.2 (.inr ⟨hne, hx⟩), hstream⟩

theorem outlives_opened (s : CellStore) (key : List UInt8) (c : Cell) (d : Directory) :
    s.Outlives (s.opened key c d) where
  counter := Nat.le_succ _
  isOpen _ hn hopen := (isOpen_opened.1 hopen).resolve_left (Nat.ne_of_lt hn)

theorem Knows.without (h : s.Knows tags) (hc : s.cells[key]? = some c) :
    (s.without key c).Knows tags where
  numbered := by
    rw [nextStream_without]
    exact h.numbered
  distinct := h.distinct
  issued a x n hx hstream := by
    rw [nextStream_without]
    rw [cells_without, Std.TreeMap.getElem?_erase] at hx
    split at hx
    · cases hx
    · exact h.issued a x n hx hstream
  apart a b x y n hx hy hxn hyn := by
    rw [cells_without, Std.TreeMap.getElem?_erase] at hx hy
    split at hx <;> split at hy <;> first | contradiction | exact h.apart a b x y n hx hy hxn hyn
  known n hn := by
    obtain ⟨hn, hclosed⟩ := isOpen_without.1 hn
    obtain ⟨other, x, hmem, hx, hstream⟩ := h.known n hn
    have hne : key ≠ other := by
      rintro rfl
      cases hc.symm.trans hx
      exact hclosed hstream
    refine ⟨other, x, hmem, ?_, hstream⟩
    rw [cells_without, Std.TreeMap.getElem?_erase, if_neg (Std.compare_eq_iff_eq.not.2 hne)]
    exact hx

theorem outlives_without (s : CellStore) (key : List UInt8) (c : Cell) :
    s.Outlives (s.without key c) where
  counter := (nextStream_without s key c).ge
  isOpen _ _ hopen := (isOpen_without.1 hopen).1

/-! ### Uses of a stream -/

theorem close_of_not_isOpen (hclosed : ¬ s.IsOpen number) : s.close number = s := by
  have hsame : s.openStreams.filter (· ≠ number) = s.openStreams :=
    List.filter_eq_self.2 fun n hn => decide_eq_true fun heq => hclosed (heq ▸ hn)
  rw [close, hsame]

/-- A use changes no cell, opens nothing, and leaves the stream its number. -/
theorem Use.cases (u : Use) (stream : Stream) (s : CellStore) :
    (∃ e, u.of stream s = .error e s) ∨
      ∃ stream' t, u.of stream s = .ok stream' t ∧ stream'.number = stream.number ∧
        t.cells = s.cells ∧ t.nextStream = s.nextStream ∧ ∀ n, t.IsOpen n → s.IsOpen n := by
  cases u with
  | read length =>
    rw [Use.of, run_map, read_eq]
    by_cases hopen : s.IsOpen stream.number
    · rw [if_pos hopen]
      cases stream.entry with
      | folder => exact .inl ⟨_, rfl⟩
      | file n => exact .inr ⟨_, _, rfl, rfl, rfl, rfl, fun _ h => h⟩
    · rw [if_neg hopen]
      exact .inl ⟨_, rfl⟩
  | write bytes =>
    rw [Use.of, write_eq]
    by_cases hopen : s.IsOpen stream.number
    · rw [if_pos hopen]
      cases stream.entry with
      | folder => exact .inl ⟨_, rfl⟩
      | file n => exact .inr ⟨_, _, rfl, rfl, rfl, rfl, fun _ h => h⟩
    · rw [if_neg hopen]
      exact .inl ⟨_, rfl⟩
  | flush =>
    rw [Use.of, run_map, flush_eq]
    by_cases hopen : s.IsOpen stream.number
    · rw [if_pos hopen]
      exact .inr ⟨_, _, rfl, rfl, rfl, rfl, fun _ h => h⟩
    · rw [if_neg hopen]
      exact .inl ⟨_, rfl⟩
  | finish =>
    rw [Use.of, run_map, finish_eq]
    by_cases hlate : stream.writes ∧ ¬ s.IsOpen stream.number
    · rw [if_pos hlate]
      exact .inl ⟨_, rfl⟩
    · rw [if_neg hlate]
      exact .inr ⟨_, _, rfl, rfl, rfl, rfl, fun _ h => ((isOpen_close _ _ _).1 h).2⟩
  | drop => exact .inr ⟨_, _, rfl, rfl, rfl, rfl, fun _ h => ((isOpen_close _ _ _).1 h).2⟩

/-- With a stream that is closed a use is refused or does nothing. -/
theorem Use.of_closed {stream : Stream} (u : Use) (hclosed : ¬ s.IsOpen stream.number) :
    u.of stream s = .error .streamClosed s ∨ u.of stream s = .ok stream s := by
  cases u with
  | read length =>
    rw [Use.of, run_map, read_eq, if_neg hclosed]
    exact .inl rfl
  | write bytes =>
    rw [Use.of, write_eq, if_neg hclosed]
    exact .inl rfl
  | flush =>
    rw [Use.of, run_map, flush_eq, if_neg hclosed]
    exact .inl rfl
  | finish =>
    rw [Use.of, run_map, finish_eq, close_of_not_isOpen hclosed]
    by_cases hlate : stream.writes ∧ ¬ s.IsOpen stream.number
    · rw [if_pos hlate]
      exact .inl rfl
    · rw [if_neg hlate]
      exact .inr rfl
  | drop =>
    rw [Use.of, run_map, run_modify, close_of_not_isOpen hclosed]
    exact .inr rfl

/-! ### One act -/

namespace Session

/-- The store knows the open streams among the handles. -/
def Sound (σ : Session) : Prop :=
  σ.store.Knows σ.tags

/-- From one session to a later one handles keep their places, their keys and their streams, and no
stream is opened that was there before. -/
structure Evolves (σ τ : Session) : Prop where
  sound : τ.Sound
  outlives : σ.store.Outlives τ.store
  tags : σ.tags <+: τ.tags

variable {σ τ ρ : Session} {index : Nat} {h : Handle}

theorem sound_start (coding : Coding) (d : Directory) :
    (Session.mk (ofDirectory coding d) []).Sound where
  numbered tag htag := absurd htag List.not_mem_nil
  distinct := List.nodup_nil
  issued _ _ _ hc hstream := by
    rw [stream_of_cellsOf hc] at hstream
    cases hstream
  apart _ _ _ _ _ hc _ hstream _ := by
    rw [stream_of_cellsOf hc] at hstream
    cases hstream
  known _ hopen := absurd hopen List.not_mem_nil

theorem Evolves.refl (hσ : σ.Sound) : σ.Evolves σ :=
  ⟨hσ, .refl _, List.prefix_rfl⟩

theorem Evolves.trans (hst : σ.Evolves τ) (htu : τ.Evolves ρ) : σ.Evolves ρ :=
  ⟨htu.sound, hst.outlives.trans htu.outlives, hst.tags.trans htu.tags⟩

/-- The handles stay as they are. -/
theorem evolves_of_store (hknows : t.Knows σ.tags) (houtlives : σ.store.Outlives t) :
    σ.Evolves { σ with store := t } :=
  ⟨hknows, houtlives, List.prefix_rfl⟩

theorem Sound.create (h : σ.Sound) (key : List UInt8) :
    σ.Evolves (σ.apply (CellStore.create key)) := by
  rw [apply, create_eq]
  by_cases hkey : σ.store.contains key
  · rw [if_pos hkey]
    exact .refl h
  · rw [if_neg hkey]
    cases σ.store.directory.create (σ.store.coding.text key) with
    | error e => exact .refl h
    | ok made =>
      have hfree := isReachable_of_not_contains (Bool.eq_false_iff.2 hkey)
      exact evolves_of_store (Knows.insert h hfree made.2 _) ⟨Nat.le_refl _, fun _ _ hopen => hopen⟩

theorem Sound.delete (h : σ.Sound) (key : List UInt8) :
    σ.Evolves (σ.apply (CellStore.delete key)) := by
  rw [apply, delete_eq]
  cases hc : σ.store.cells[key]? with
  | none => exact .refl h
  | some c =>
    have hknows := Knows.without h hc
    have houtlives := outlives_without σ.store key c
    dsimp only
    by_cases hfile : (σ.store.directory.lookup? c.name).isSome
    · rw [if_pos hfile]
      cases σ.store.directory.remove c.name with
      | error e => exact evolves_of_store hknows houtlives
      | ok directory =>
        exact evolves_of_store (hknows.congr rfl rfl fun _ hopen => hopen)
          (houtlives.trans ⟨Nat.le_refl _, fun _ _ hopen => hopen⟩)
    · rw [if_neg hfile]
      exact evolves_of_store hknows houtlives

/-- A stream that was opened and closed at once leaves no trace. -/
theorem Sound.openedClosed (h : σ.Sound) (hc : σ.store.cells[key]? = some c)
    (hbusy : ¬ σ.store.IsBusy c) (d : Directory) :
    σ.Evolves { σ with store := (σ.store.opened key c d).close σ.store.nextStream } := by
  refine evolves_of_store (((Knows.opened h hc hbusy d).close _).forget ?_)
    ((outlives_opened _ key c d).trans (outlives_close _ _))
  exact fun hopen => ((isOpen_close _ _ _).1 hopen).1 rfl

theorem Sound.readAll (h : σ.Sound) (key : List UInt8) :
    σ.Evolves (σ.apply (CellStore.readAll key)) := by
  rw [apply, readAll_eq]
  cases hc : σ.store.cells[key]? with
  | none => exact .refl h
  | some c =>
    dsimp only
    by_cases hbusy : σ.store.IsBusy c
    · rw [if_pos hbusy]
      exact .refl h
    · rw [if_neg hbusy]
      cases σ.store.directory.openEntry c.name with
      | error e => exact .refl h
      | ok entry => cases entry <;> exact h.openedClosed hc hbusy _

theorem Sound.writeAll (h : σ.Sound) (key bytes : List UInt8) :
    σ.Evolves (σ.apply (CellStore.writeAll key bytes)) := by
  rw [apply, writeAll_eq]
  cases hc : σ.store.cells[key]? with
  | none => exact .refl h
  | some c =>
    dsimp only
    by_cases hbusy : σ.store.IsBusy c
    · rw [if_pos hbusy]
      exact .refl h
    · rw [if_neg hbusy]
      cases σ.store.directory.create c.name with
      | error e => exact .refl h
      | ok made => exact h.openedClosed hc hbusy _

theorem Sound.grant (h : σ.Sound) (key : List UInt8) (writes : Bool)
    (f : String → Directory → Except FileError (Entry × Directory)) :
    σ.Evolves (σ.grant key (openStream key writes f)) := by
  rw [Session.grant, openStream_eq]
  cases hc : σ.store.cells[key]? with
  | none => exact .refl h
  | some c =>
    dsimp only
    by_cases hbusy : σ.store.IsBusy c
    · rw [if_pos hbusy]
      exact .refl h
    · rw [if_neg hbusy]
      cases f c.name σ.store.directory with
      | error e => exact .refl h
      | ok made =>
        have htags : tags ⟨σ.store.opened key c made.2, σ.handles ++
            [⟨key, ⟨σ.store.nextStream, made.1, writes, 0⟩⟩]⟩ =
            σ.tags ++ [(key, σ.store.nextStream)] := List.map_append
        refine ⟨?_, outlives_opened σ.store key c made.2, ?_⟩
        · rw [Sound, htags]
          exact Knows.opened h hc hbusy made.2
        · rw [htags]
          exact List.prefix_append _ _

theorem tags_set (hh : σ.handles[index]? = some h) {stream : Stream}
    (hnumber : stream.number = h.stream.number) (store : CellStore) :
    (Session.mk store (σ.handles.set index { h with stream })).tags = σ.tags := by
  obtain ⟨hlt, rfl⟩ := List.getElem?_eq_some_iff.1 hh
  rw [tags, tags, List.map_set, hnumber]
  refine List.ext_getElem? fun i => ?_
  rw [List.getElem?_set]
  split
  · rename_i heq
    simp [← heq, hlt]
  · rfl

theorem Sound.use (hσ : σ.Sound) (index : Nat) (u : Use) : σ.Evolves (σ.use index u) := by
  rw [Session.use]
  cases hh : σ.handles[index]? with
  | none => exact .refl hσ
  | some h =>
    rcases u.cases h.stream σ.store with ⟨e, heq⟩ | ⟨stream, t, heq, hnumber, hcells, hnext, hopen⟩
    · simp only [heq]
      exact .refl hσ
    · simp only [heq]
      have htags := tags_set hh hnumber t
      refine ⟨?_, ⟨hnext.ge, fun n _ => hopen n⟩, ?_⟩
      · rw [Sound, htags]
        exact Knows.congr hσ hcells hnext hopen
      · exact htags.symm ▸ List.prefix_rfl

/-- Nothing comes of using a handle whose stream is closed. -/
theorem Stale.use_eq (hstale : σ.Stale index) (u : Use) : σ.use index u = σ := by
  obtain ⟨h, hh, hclosed⟩ := hstale
  rw [use, hh]
  rcases u.of_closed hclosed with heq | heq
  · simp only [heq]
  · obtain ⟨hlt, rfl⟩ := List.getElem?_eq_some_iff.1 hh
    simp only [heq]
    rw [List.set_getElem_self]

theorem Sound.act (hσ : σ.Sound) (a : Act) : σ.Evolves (σ.act a) := by
  cases a with
  | create key => exact hσ.create key
  | delete key => exact hσ.delete key
  | openReader key => exact hσ.grant key _ _
  | openWriter key => exact hσ.grant key _ _
  | readAll key => exact hσ.readAll key
  | writeAll key bytes => exact hσ.writeAll key bytes
  | use index u => exact hσ.use index u

theorem Sound.run (hσ : σ.Sound) (acts : List Act) : σ.Evolves (σ.run acts) := by
  induction acts generalizing σ with
  | nil => exact .refl hσ
  | cons a rest ih => exact (hσ.act a).trans (ih (hσ.act a).sound)

/-! ### What holds of every session -/

theorem getElem?_tags_eq_some {tag : List UInt8 × Nat} :
    σ.tags[index]? = some tag ↔
      ∃ h, σ.handles[index]? = some h ∧ (h.key, h.stream.number) = tag := by
  rw [tags, List.getElem?_map, Option.map_eq_some_iff]

/-- A handle that was given out is still there, with the same key and stream. -/
theorem Evolves.handle (hst : σ.Evolves τ) (hh : σ.handles[index]? = some h) :
    ∃ h', τ.handles[index]? = some h' ∧ h'.key = h.key ∧
      h'.stream.number = h.stream.number := by
  have htag : τ.tags[index]? = some (h.key, h.stream.number) := by
    have hi := getElem?_tags_eq_some.2 ⟨h, hh, rfl⟩
    obtain ⟨later, hlater⟩ := hst.tags
    rw [← hlater, List.getElem?_append_left (List.getElem?_eq_some_iff.1 hi).1]
    exact hi
  obtain ⟨h', hh', heq⟩ := getElem?_tags_eq_some.1 htag
  exact ⟨h', hh', (Prod.mk.inj heq).1, (Prod.mk.inj heq).2⟩

/-- The cell of an open handle knows its stream. -/
theorem Sound.cell_of_openFor (hσ : σ.Sound) (hopen : σ.OpenFor key index) :
    ∃ h c, σ.handles[index]? = some h ∧ σ.store.IsOpen h.stream.number ∧
      σ.store.cells[key]? = some c ∧ c.stream = some h.stream.number := by
  obtain ⟨h, hh, rfl, hnumber⟩ := hopen
  obtain ⟨key, c, hmem, hc, hstream⟩ := hσ.known _ hnumber
  have hmem' : (h.key, h.stream.number) ∈ σ.tags :=
    List.mem_of_getElem? (getElem?_tags_eq_some.2 ⟨h, hh, rfl⟩)
  -- Only one of the tags has this number.
  have hkey := (Prod.mk.inj (List.inj_on_of_nodup_map hσ.distinct hmem hmem' rfl)).1
  exact ⟨h, c, hh, hnumber, hkey ▸ hc, hstream⟩

theorem Sound.single (hσ : σ.Sound) {i j : Nat} (hi : σ.OpenFor key i) (hj : σ.OpenFor key j) :
    i = j := by
  obtain ⟨h, c, hh, -, hc, hstream⟩ := hσ.cell_of_openFor hi
  obtain ⟨h', c', hh', -, hc', hstream'⟩ := hσ.cell_of_openFor hj
  cases hc.symm.trans hc'
  have hnumber : h.stream.number = h'.stream.number :=
    Option.some.inj (hstream.symm.trans hstream')
  have hi := getElem?_tags_eq_some.2 ⟨h, hh, rfl⟩
  have hj := getElem?_tags_eq_some.2 ⟨h', hh', rfl⟩
  have hlt : i < (σ.tags.map (·.2)).length := by
    rw [List.length_map]
    exact (List.getElem?_eq_some_iff.1 hi).1
  refine (List.getElem?_inj hlt hσ.distinct).1 ?_
  rw [List.getElem?_map, List.getElem?_map, hi, hj]
  exact congrArg some hnumber

theorem Sound.isReachable_iff (hσ : σ.Sound) (key : List UInt8) :
    ¬ σ.store.IsReachable key ↔ ∃ i, σ.OpenFor key i := by
  constructor
  · intro h
    simp only [IsReachable, not_forall, not_not] at h
    obtain ⟨c, hc, n, hstream, hopen⟩ := h
    obtain ⟨other, c', hmem, hc', hstream'⟩ := hσ.known n hopen
    cases hσ.apart other key c' c n hc' hc hstream' hstream
    obtain ⟨i, hi⟩ := List.getElem?_of_mem hmem
    obtain ⟨h, hh, heq⟩ := getElem?_tags_eq_some.1 hi
    obtain ⟨hkey, rfl⟩ := Prod.mk.inj heq
    exact ⟨i, h, hh, hkey, hopen⟩
  · rintro ⟨i, hi⟩ hfree
    obtain ⟨h, c, -, hopen, hc, hstream⟩ := hσ.cell_of_openFor hi
    exact hfree c hc ⟨_, hstream, hopen⟩

/-- A stream is only opened for a cell that has none open. -/
theorem Sound.opens (hσ : σ.Sound) {writes : Bool} {stream : Stream}
    {f : String → Directory → Except FileError (Entry × Directory)}
    (hopened : openStream key writes f σ.store = .ok stream t) :
    σ.store.contains key ∧ ∀ i, ¬ σ.OpenFor key i := by
  rw [openStream_eq] at hopened
  cases hc : σ.store.cells[key]? with
  | none => simp [hc] at hopened
  | some c =>
    rw [hc] at hopened
    dsimp only at hopened
    split at hopened
    · cases hopened
    · rename_i hbusy
      refine ⟨?_, fun i hi => ?_⟩
      · rw [contains, Std.TreeMap.contains_eq_isSome_getElem?, hc]
        rfl
      · obtain ⟨h, c', -, hopen, hc', hstream⟩ := hσ.cell_of_openFor hi
        cases hc.symm.trans hc'
        exact hbusy ⟨_, hstream, hopen⟩

/-- A handle whose stream is closed stays so. -/
theorem Stale.evolves (hstale : σ.Stale index) (hσ : σ.Sound) (hst : σ.Evolves τ) :
    τ.Stale index := by
  obtain ⟨h, hh, hclosed⟩ := hstale
  obtain ⟨h', hh', -, hnumber⟩ := hst.handle hh
  refine ⟨h', hh', fun hopen => hclosed (hst.outlives.isOpen _ ?_ (hnumber ▸ hopen))⟩
  exact hσ.numbered _ (List.mem_of_getElem? (getElem?_tags_eq_some.2 ⟨h, hh, rfl⟩))

theorem cells_delete (σ : Session) (key : List UInt8) :
    (σ.act (.delete key)).store.cells[key]? = none := by
  rw [act, apply, delete_eq]
  cases hc : σ.store.cells[key]? with
  | none => exact hc
  | some c =>
    have herased : (σ.store.without key c).cells[key]? = none := by simp
    dsimp only
    by_cases hfile : (σ.store.directory.lookup? c.name).isSome
    · rw [if_pos hfile]
      cases σ.store.directory.remove c.name <;> exact herased
    · rw [if_neg hfile]
      exact herased

/-- A deletion closes the handles of its cell. -/
theorem Sound.delete_stale (hσ : σ.Sound) (hopen : σ.OpenFor key index) :
    (σ.act (.delete key)).Stale index := by
  obtain ⟨h, hh, hkey, -⟩ := hopen
  obtain ⟨h', hh', hkey', -⟩ := (hσ.act (.delete key)).handle hh
  refine ⟨h', hh', fun hstill => ?_⟩
  obtain ⟨-, c, -, -, hc, -⟩ := (hσ.act (.delete key)).sound.cell_of_openFor
    ⟨h', hh', hkey'.trans hkey, hstill⟩
  rw [cells_delete] at hc
  cases hc

/-- What the clients of a store can rely on. -/
structure Exclusive (σ : Session) : Prop where
  /-- No key has two open handles. -/
  single : ∀ key i j, σ.OpenFor key i → σ.OpenFor key j → i = j
  /-- What is opened is a cell that has no open handle. -/
  opens : ∀ key stream store, openReader key σ.store = .ok stream store ∨
    openWriter key σ.store = .ok stream store →
      σ.store.contains key ∧ ∀ i, ¬ σ.OpenFor key i
  reachable : ∀ key, ¬ σ.store.IsReachable key ↔ ∃ i, σ.OpenFor key i
  /-- A deletion closes the open handle of the cell, -/
  deleted : ∀ key i, σ.OpenFor key i → (σ.act (.delete key)).Stale i
  /-- and whatever is done afterwards, it stays closed. -/
  forever : ∀ i, σ.Stale i → ∀ acts, (σ.run acts).Stale i
  /-- A closed stream cannot be used, and the attempt touches no file. -/
  refused : ∀ i h, σ.handles[i]? = some h → σ.Stale i →
    (∀ length, read h.stream length σ.store = .error .streamClosed σ.store) ∧
      (∀ bytes, write h.stream bytes σ.store = .error .streamClosed σ.store) ∧
      flush h.stream σ.store = .error .streamClosed σ.store ∧
      (h.stream.writes → finish h.stream σ.store = .error .streamClosed σ.store)
  /-- Nor does it change anything to give up a closed stream. -/
  harmless : ∀ i, σ.Stale i → ∀ u, σ.act (.use i u) = σ

/-- Whatever is done with a store and the handles it gives out, in any order, they are exclusive. -/
theorem exclusive_of_run (coding : Coding) (d : Directory) (acts : List Act) :
    ((Session.mk (ofDirectory coding d) []).run acts).Exclusive := by
  have hσ := ((sound_start coding d).run acts).sound
  generalize (Session.mk (ofDirectory coding d) []).run acts = σ at hσ
  exact
    { single := fun key i j => hσ.single
      opens := fun key stream store h => h.elim hσ.opens hσ.opens
      reachable := hσ.isReachable_iff
      deleted := fun key i => hσ.delete_stale
      forever := fun i hstale acts => hstale.evolves hσ (hσ.run acts)
      refused := fun i h hh hstale => by
        obtain ⟨h', hh', hclosed⟩ := hstale
        cases hh.symm.trans hh'
        refine ⟨fun length => ?_, fun bytes => ?_, ?_, fun hwrites => ?_⟩
        · rw [read_eq, if_neg hclosed]
        · rw [write_eq, if_neg hclosed]
        · rw [flush_eq, if_neg hclosed]
        · rw [finish_eq, if_pos ⟨hwrites, hclosed⟩]
      harmless := fun i hstale u => hstale.use_eq u }

end Session

end BytecodeKernel.CellStore
