/-!
The console: what processes printed, in order. Printing has no answer, so all that a console can do
to whoever prints is to panic, and it may go by everything it was asked to print before. A text at
which it panics is not printed.
-/

namespace BytecodeKernel

/-- How a console takes what it is asked to print: whether it panics at a text of a process, after
the texts it was asked to print before. -/
abbrev Sink := List (Nat × String) → Nat → String → Bool

namespace Sink

/-- Keeps every text. -/
def buffer : Sink := fun _ _ _ => false

/-- Panics at certain texts, whoever prints them and however often. -/
def breaking (breaks : String → Bool) : Sink := fun _ _ text => breaks text

/-- At a text of this process it panics or not by the text alone. -/
def BreaksAt (sink : Sink) (origin : Nat) (breaks : String → Bool) : Prop :=
  ∀ asked text, sink asked origin text = breaks text

theorem breaksAt_buffer (origin : Nat) : buffer.BreaksAt origin fun _ => false :=
  fun _ _ => rfl

theorem breaksAt_breaking (origin : Nat) (breaks : String → Bool) :
    (breaking breaks).BreaksAt origin breaks :=
  fun _ _ => rfl

end Sink

structure Console where
  sink : Sink := .buffer
  /-- All that it was ever asked to print, oldest first. -/
  asked : List (Nat × String) := []
  /-- The printed texts with the processes that printed them, oldest first. -/
  printed : List (Nat × String) := []

namespace Console

def panicsAt (c : Console) (origin : Nat) (text : String) : Bool :=
  c.sink c.asked origin text

/-- The console after it was asked to print a text. -/
def print (c : Console) (origin : Nat) (text : String) : Console :=
  { c with
    asked := c.asked ++ [(origin, text)]
    printed := if c.panicsAt origin text then c.printed else c.printed ++ [(origin, text)] }

def lines (c : Console) : List String :=
  c.printed.map Prod.snd

def linesFrom (c : Console) (origin : Nat) : List String :=
  (c.printed.filter fun line => line.1 == origin).map Prod.snd

def cleared (c : Console) : Console :=
  { c with printed := [] }

/-- Printed texts by process, those of one process in their order. -/
def byOrigin (printed : List (Nat × String)) : List (Nat × String) :=
  printed.mergeSort fun a b => a.1 ≤ b.1

end Console

end BytecodeKernel
