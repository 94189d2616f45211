import LexLisp.Machine.Config
import LexLisp.Text.Quoted

/-!
# The diagnostic log

A log line gives its level, a message and fields.  A message is written bare
if it is made of a few harmless characters only, and quoted otherwise.
-/

namespace LexLisp

namespace Log

/-- The levels of the log, the most serious first. -/
inductive Level where
  | panic
  | fatal
  | error
  | warning
  | info
  | debug
  | trace
  deriving DecidableEq, Repr

namespace Level

/-- How far down the levels reach: a smaller rank is more serious. -/
def rank : Level → Nat
  | panic => 0
  | fatal => 1
  | error => 2
  | warning => 3
  | info => 4
  | debug => 5
  | trace => 6

/-- The name of a level in a log line. -/
def name : Level → Text
  | panic => "panic"
  | fatal => "fatal"
  | error => "error"
  | warning => "warning"
  | info => "info"
  | debug => "debug"
  | trace => "trace"

/-- The lower case of a character, where that is an ASCII letter.  Besides the
capitals of ASCII this concerns the capital I with a dot and the sign of the
kelvin. -/
def lowerCase (c : Char) : Char :=
  if c = '\u0130' then 'i' else if c = '\u212A' then 'k' else c.toLower

/-- The level that a word asks for, in any letter case. -/
def ofWord? (word : Text) : Option Level :=
  let lower := word.map fun
    | .char c => .char (lowerCase c)
    | r => r
  if lower = ("warn" : Text) then some warning
  else [panic, fatal, error, warning, info, debug, trace].find? fun level => level.name = lower

/-- Are lines of this level written if `threshold` was asked for? -/
def isWritten (level threshold : Level) : Bool :=
  level.rank ≤ threshold.rank

end Level

/-- A character that needs no quotes. -/
def isBare : Rune → Bool
  | .char c =>
    ('a' ≤ c && c ≤ 'z') || ('A' ≤ c && c ≤ 'Z') || ('0' ≤ c && c ≤ '9') ||
      ['-', '.', '_', '/', '@', '^', '+'].contains c
  | .stray _ => false

/-- A message or a field as it stands in a log line. -/
def shown (t : Text) : Text :=
  if t.all isBare then t else t.quoted

/-- A log line, or nothing if its level is not written. -/
def line (threshold level : Level) (message : Text) (fields : List (Text × Text)) : Text :=
  if level.isWritten threshold then
    ("level=" : Text) ++ level.name ++ (" msg=" : Text) ++ shown message ++
      (fields.flatMap fun (key, value) => (" " : Text) ++ key ++ ("=" : Text) ++ shown value) ++
      newline
  else []

/-- The lines that trace calls, each with its environment, counted from one,
and its height. -/
def calls (threshold : Level) (made : Array Call) : Text :=
  made.toList.flatMap fun call =>
    line threshold .debug (("call " : Text) ++ call.frame.name)
      [("env", .ofNat (call.env + 1)), ("height", .ofNat call.height)]

end Log

end LexLisp
