/-!
Blank characters: those with the Unicode property White_Space, 25 code points in all.
-/

namespace BytecodeKernel

/-- Whether a character counts as a blank between words. -/
def isBlank (c : Char) : Bool :=
  let n := c.toNat
  (9 ≤ n && n ≤ 13) || n == 0x20 || n == 0x85 || n == 0xA0 || n == 0x1680
    || (0x2000 ≤ n && n ≤ 0x200A) || n == 0x2028 || n == 0x2029 || n == 0x202F || n == 0x205F
    || n == 0x3000

/-- The text without the blanks at its two ends. -/
def trimBlanks (text : List Char) : List Char :=
  ((text.dropWhile isBlank).reverse.dropWhile isBlank).reverse

/-- The text before and after the first character that satisfies `p`, or `none` when there is
none. -/
def splitAtFirst? (p : Char → Bool) (text : List Char) : Option (List Char × List Char) :=
  match text.dropWhile fun c => !p c with
  | [] => none
  | _ :: rest => some (text.takeWhile fun c => !p c, rest)

theorem splitAtFirst?_eq_some {p : Char → Bool} {text before after : List Char}
    (h : splitAtFirst? p text = some (before, after)) :
    ∃ c, p c = true ∧ text = before ++ c :: after ∧ ∀ d ∈ before, p d = false := by
  simp only [splitAtFirst?] at h
  split at h
  · contradiction
  · rename_i c rest hdrop
    obtain ⟨rfl, rfl⟩ : text.takeWhile (fun c => !p c) = before ∧ rest = after := by simpa using h
    have hhead := List.head?_dropWhile_not (fun c => !p c) text
    rw [hdrop] at hhead
    refine ⟨c, by simpa using hhead, ?_, ?_⟩
    · rw [← hdrop, List.takeWhile_append_dropWhile]
    · intro d hd
      simpa using List.all_takeWhile (p := fun c => !p c) (l := text) |> fun hall =>
        List.all_eq_true.1 hall d hd

end BytecodeKernel
