/-!
Quoted text: characters between double quotes. Inside, a backslash, a double quote, a line feed and
a tab are written with a backslash in front; any other character stands for itself.
-/

namespace BytecodeKernel.Quoted

/-- The character that an escape letter stands for. -/
def escaped? : Char → Option Char
  | 'n' => some '\n'
  | 't' => some '\t'
  | '"' => some '"'
  | '\\' => some '\\'
  | _ => none

/-- Reads what stands between the quotes. Refuses a bare quote, an unknown escape letter and a
backslash at the end. -/
def unescape? : List Char → Option (List Char)
  | [] => some []
  | ['\\'] => none
  | '\\' :: c :: rest => do
    let d ← escaped? c
    return d :: (← unescape? rest)
  | c :: rest => if c = '"' then none else (unescape? rest).map (c :: ·)

/-- Reads a text with its quotes. -/
def read? : List Char → Option (List Char)
  | '"' :: text =>
    match text.getLast? with
    | some '"' => unescape? text.dropLast
    | _ => none
  | _ => none

/-- Escapes what has no form of its own between quotes. -/
def escape : List Char → List Char
  | [] => []
  | '\\' :: rest => '\\' :: '\\' :: escape rest
  | '"' :: rest => '\\' :: '"' :: escape rest
  | '\n' :: rest => '\\' :: 'n' :: escape rest
  | c :: rest => c :: escape rest

/-- Writes a text with its quotes. -/
def write (text : List Char) : List Char :=
  '"' :: escape text ++ ['"']

theorem unescape?_escape (text : List Char) : unescape? (escape text) = some text := by
  fun_induction escape text with
  | case1 => rfl
  | case2 rest ih => simp [unescape?, escaped?, ih]
  | case3 rest ih => simp [unescape?, escaped?, ih]
  | case4 rest ih => simp [unescape?, escaped?, ih]
  | case5 c rest hback hquote hfeed ih =>
    have hb : c ≠ '\\' := fun h => hback h
    have hq : c ≠ '"' := fun h => hquote h
    rw [unescape?] <;> simp_all

theorem read?_write (text : List Char) : read? (write text) = some text := by
  simp [read?, write, unescape?_escape]

end BytecodeKernel.Quoted
