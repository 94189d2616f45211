import LexLisp.Text.Basic

/-!
# Output

A sink takes texts, one write at a time.  It may have room for a limited
number of writes; a write after that fails and leaves nothing behind.
-/

namespace LexLisp

/-- Where output goes: how many more writes it takes, without limit if that is
`none`, and what has been written so far, the latest write first. -/
structure Sink where
  room : Option Nat
  writes : List Text
  deriving DecidableEq, Repr

namespace Sink

/-- A sink that has taken nothing yet. -/
def empty (room : Option Nat) : Sink := ⟨room, []⟩

/-- All that has been written. -/
def written (s : Sink) : Text :=
  s.writes.reverse.flatten

/-- Write a text, if there is room. -/
def write? (s : Sink) (t : Text) : Option Sink :=
  match s.room with
  | none => some ⟨none, t :: s.writes⟩
  | some 0 => none
  | some (n + 1) => some ⟨some n, t :: s.writes⟩

/-- Write texts one by one up to the first write that fails; was there none? -/
def writeAll (s : Sink) : List Text → Sink × Bool
  | [] => (s, true)
  | t :: rest =>
    match s.write? t with
    | some s => writeAll s rest
    | none => (s, false)

end Sink

end LexLisp
