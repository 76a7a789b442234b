import Std.Data.TreeMap
/-!
Byte stores: a byte at every address, zero until something else is written there. A store is seen
through `get`; each way of writing has one lemma that says what `get` gives afterwards.
-/

namespace BytecodeKernel

/-- The bytes that are not zero, by address. -/
structure ByteStore where
  cells : Std.TreeMap Nat UInt8 := {}

namespace ByteStore

/-- The byte at an address. -/
def get (s : ByteStore) (addr : Nat) : UInt8 :=
  s.cells.getD addr 0

def set (s : ByteStore) (addr : Nat) (b : UInt8) : ByteStore :=
  ⟨if b = 0 then s.cells.erase addr else s.cells.insert addr b⟩

/-- The `count` bytes from `addr` on. -/
def read (s : ByteStore) (addr count : Nat) : List UInt8 :=
  (List.range' addr count).map s.get

/-- Writes bytes to the addresses from `addr` on. -/
def write (s : ByteStore) (addr : Nat) : List UInt8 → ByteStore
  | [] => s
  | b :: rest => (s.set addr b).write (addr + 1) rest

@[simp] theorem get_empty (addr : Nat) : ({} : ByteStore).get addr = 0 := by
  simp [get]

theorem get_set (s : ByteStore) (addr : Nat) (b : UInt8) (i : Nat) :
    (s.set addr b).get i = if i = addr then b else s.get i := by
  by_cases hb : b = 0
  · simp [get, set, hb, Std.TreeMap.getD_erase, @eq_comm _ i addr]
  · simp [get, set, hb, Std.TreeMap.getD_insert, @eq_comm _ i addr]

/-- A write changes the addresses it covers and no other. -/
theorem get_write (s : ByteStore) (addr : Nat) (bytes : List UInt8) (i : Nat) :
    (s.write addr bytes).get i =
      if addr ≤ i ∧ i < addr + bytes.length then bytes.getD (i - addr) 0 else s.get i := by
  induction bytes generalizing s addr with
  | nil => simp [write, show ¬(addr ≤ i ∧ i < addr) by omega]
  | cons b rest ih =>
    rw [write, ih, get_set]
    by_cases heq : i = addr
    · subst heq
      rw [if_neg (by omega), if_pos rfl, if_pos ⟨Nat.le_refl i, by simp⟩, Nat.sub_self]
      rfl
    · by_cases hin : addr + 1 ≤ i ∧ i < addr + 1 + rest.length
      · have hwide : addr ≤ i ∧ i < addr + (b :: rest).length := by
          simp only [List.length_cons]
          omega
        rw [if_pos hin, if_pos hwide, show i - addr = (i - (addr + 1)) + 1 by omega,
          List.getD_cons_succ]
      · have hnarrow : ¬(addr ≤ i ∧ i < addr + (b :: rest).length) := by
          simp only [List.length_cons]
          omega
        rw [if_neg hin, if_neg heq, if_neg hnarrow]

@[simp] theorem length_read (s : ByteStore) (addr count : Nat) :
    (s.read addr count).length = count := by
  simp [read]

theorem getElem_read (s : ByteStore) (addr count i : Nat) (h : i < (s.read addr count).length) :
    (s.read addr count)[i] = s.get (addr + i) := by
  simp [read]

/-- What was written is read back. -/
theorem read_write (s : ByteStore) (addr : Nat) (bytes : List UInt8) :
    (s.write addr bytes).read addr bytes.length = bytes := by
  refine List.ext_getElem (by simp) fun i hread hbytes => ?_
  rw [getElem_read, get_write, if_pos (by omega), show addr + i - addr = i by omega]
  simp [hbytes]

/-- A write leaves a range alone that it does not meet. -/
theorem read_write_of_disjoint (s : ByteStore) {addr count start : Nat} {bytes : List UInt8}
    (h : start + count ≤ addr ∨ addr + bytes.length ≤ start) :
    (s.write addr bytes).read start count = s.read start count := by
  refine List.ext_getElem (by simp) fun i hread hold => ?_
  have hi : i < count := by simpa using hold
  rw [getElem_read, getElem_read, get_write, if_neg (by omega)]

end ByteStore

end BytecodeKernel
