import LexLisp.Output

/-!
# Call stacks

A call stack holds one frame for every call that has not returned, the entry
point first.  It may have a greatest height, at which no further frame may be
pushed; a greatest height of zero or less is no limit.
-/

namespace LexLisp

/-- One call: the name it was made by, and whether it went to a closure. -/
structure Frame where
  name : Text
  closure : Bool
  deriving DecidableEq, Repr

/-- A call stack, the entry point first. -/
structure CallStack where
  frames : Array Frame
  maxHeight : Int
  deriving DecidableEq, Repr

namespace CallStack

/-- The greatest height of a call stack unless another one is set. -/
def defaultMaxHeight : Int := 10000

/-- A call stack with no frames. -/
def empty (maxHeight : Int) : CallStack := ⟨#[], maxHeight⟩

/-- The number of frames. -/
def height (s : CallStack) : Nat := s.frames.size

/-- The frame of the latest call. -/
def top? (s : CallStack) : Option Frame := s.frames.back?

/-- Has the stack reached its greatest height? -/
def isFull (s : CallStack) : Bool :=
  0 < s.maxHeight && s.maxHeight ≤ s.height

/-- The stack with one more frame. -/
def push (s : CallStack) (f : Frame) : CallStack :=
  { s with frames := s.frames.push f }

/-- The stack without its latest frame. -/
def pop (s : CallStack) : CallStack :=
  { s with frames := s.frames.pop }

@[simp] theorem height_push (s : CallStack) (f : Frame) : (s.push f).height = s.height + 1 := by
  simp [push, height]

@[simp] theorem pop_push (s : CallStack) (f : Frame) : (s.push f).pop = s := by
  simp [push, pop]

@[simp] theorem top?_push (s : CallStack) (f : Frame) : (s.push f).top? = some f := by
  simp [push, top?]

/-- A frame as it is listed, with its height. -/
def describe (f : Frame) (height : Nat) : Text :=
  ("  height " : Text) ++ Text.ofNat height ++ (": " : Text) ++ f.name ++
    (if f.closure then " [closure]" else "" : Text) ++ newline

/-- The lines that list a call stack, the latest call first. -/
def report (s : CallStack) : List Text :=
  (("Stack Trace [" : Text) ++ Text.ofNat s.height ++
      (" frames -- entrypoint last]:" : Text) ++ newline) ::
    (s.frames.toList.zipIdx.map fun (f, i) => describe f i).reverse

end CallStack

end LexLisp
