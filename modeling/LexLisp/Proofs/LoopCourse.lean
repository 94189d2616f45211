import LexLisp.Proofs.SessionIsolation
import LexLisp.Repl

/-!
# The course of the loop

What the loop does is settled by its events alone, before anything is evaluated: which source
texts there are in them (`Repl.sources`), how many of these are evaluated if only so many results
can be written, and which event is the last that is taken (`Repl.StopsAfter`).  What the evaluations
come to is told by `Interpreter.evalLines`, which knows nothing of events and writes.

One event is one step (`Repl.respond_of_ends`, `Repl.respond_of_skipped`,
`Repl.respond_of_source`).  A step puts the course of the loop on what is left together with what
it did itself (`Repl.Course.skip`, `Repl.Course.line`), and by induction over the events this
gives the course of the whole (`Repl.loop_of_evalLines`).
-/

namespace LexLisp

namespace Interpreter

/-- Evaluate source texts in order in one environment: their results, the calls that were made,
and the interpreter after the last of them. -/
def evalLines (steps : Nat) (e : EnvId) :
    List Text → Interpreter → Option (List (Except Panic Text) × Array Call × Interpreter)
  | [], i => some ([], #[], i)
  | source :: rest, i =>
    match i.evalText e source steps with
    | none => none
    | some reply =>
      (evalLines steps e rest reply.interpreter).map fun (results, calls, last) =>
        (reply.result :: results, reply.calls ++ calls, last)

section EvalLines

variable {i last : Interpreter} {e : EnvId} {n m : Nat} {source : Text} {rest : List Text}
  {results : List (Except Panic Text)} {calls : Array Call}

/-- Lines are evaluated one after another, each in what the one before has left. -/
theorem evalLines_cons_iff :
    i.evalLines n e (source :: rest) = some (results, calls, last) ↔
      ∃ reply more others, i.evalText e source n = some reply ∧
        reply.interpreter.evalLines n e rest = some (more, others, last) ∧
        results = reply.result :: more ∧ calls = reply.calls ++ others := by
  constructor
  · intro h
    rw [evalLines] at h
    split at h
    · cases h
    · rename_i reply hreply
      obtain ⟨⟨more, others, last'⟩, hmore, heq⟩ := Option.map_eq_some_iff.mp h
      cases heq
      exact ⟨reply, more, others, hreply, hmore, rfl, rfl⟩
  · intro h
    obtain ⟨reply, more, others, hreply, hmore, hresults, hcalls⟩ := h
    rw [evalLines, hreply]
    dsimp only
    rw [hmore, hresults, hcalls]
    rfl

theorem evalLines_nil_shown {texts : List Text}
    (h : i.evalLines n e [] = some (texts.map .ok, calls, last)) :
    texts = [] ∧ calls = #[] ∧ last = i := by
  cases texts with
  | nil =>
      cases h
      exact ⟨rfl, rfl, rfl⟩
  | cons text texts => cases h

/-- If all lines have results that are shown, so have the first and the rest. -/
theorem evalLines_cons_shown {texts : List Text}
    (h : i.evalLines n e (source :: rest) = some (texts.map .ok, calls, last)) :
    ∃ reply text more others, i.evalText e source n = some reply ∧ reply.result = .ok text ∧
      reply.interpreter.evalLines n e rest = some (more.map .ok, others, last) ∧
      texts = text :: more ∧ calls = reply.calls ++ others := by
  obtain ⟨reply, results, others, hreply, hrest, hresults, hcalls⟩ := evalLines_cons_iff.mp h
  cases texts with
  | nil => cases hresults
  | cons text more =>
      obtain ⟨htext, rfl⟩ := List.cons.inj hresults
      exact ⟨reply, text, more, others, hreply, htext.symm, hrest, rfl, hcalls⟩

/-- More steps change nothing. -/
theorem evalLines_eq_of_le (hle : n ≤ m) {sources : List Text}
    (h : i.evalLines n e sources = some (results, calls, last)) :
    i.evalLines m e sources = some (results, calls, last) := by
  induction sources generalizing i results calls with
  | nil => exact h
  | cons source rest ih =>
      obtain ⟨reply, more, others, hreply, hmore, hresults, hcalls⟩ := evalLines_cons_iff.mp h
      exact evalLines_cons_iff.mpr
        ⟨reply, more, others, evalText_eq_of_le hle hreply, ih hmore, hresults, hcalls⟩

/-- In a root every source text has a text to be shown. -/
theorem Rooted.exists_evalLines (h : Rooted e i) (sources : List Text) :
    ∃ (n : Nat) (texts : List Text) (calls : Array Call) (last : Interpreter),
      i.evalLines n e sources = some (texts.map .ok, calls, last) := by
  induction sources generalizing i with
  | nil => exact ⟨0, [], #[], i, rfl⟩
  | cons source rest ih =>
      obtain ⟨session, hsession, hlimit⟩ := h.session
      rw [← stackOf_of_session? hsession] at hlimit
      obtain ⟨n₁, reply, hreply⟩ := evalText_returns source hlimit
      obtain ⟨text, htext⟩ := evalText_shown h.obeys (Nat.le_refl e) h.lt hreply
      obtain ⟨n₂, texts, calls, last, hrest⟩ := ih (h.evalText hreply)
      refine ⟨max n₁ n₂, text :: texts, reply.calls ++ calls, last, ?_⟩
      apply evalLines_cons_iff.mpr
      refine ⟨reply, texts.map .ok, calls, evalText_eq_of_le (Nat.le_max_left n₁ n₂) hreply,
        evalLines_eq_of_le (Nat.le_max_right n₁ n₂) hrest, ?_, rfl⟩
      rw [htext, List.map_cons]

end EvalLines

end Interpreter

/-- The first so many elements of a list, all of them if there is no limit. -/
def firstOf {α : Type} (limit : Option Nat) (xs : List α) : List α :=
  match limit with
  | none => xs
  | some k => xs.take k

theorem firstOf_nil {α : Type} (limit : Option Nat) : firstOf limit ([] : List α) = [] := by
  cases limit with
  | none => rfl
  | some k => exact List.take_nil

theorem firstOf_cons {α : Type} (limit : Option Nat) (x : α) (xs : List α) :
    firstOf (limit.map (· + 1)) (x :: xs) = x :: firstOf limit xs := by
  cases limit <;> rfl

namespace Sink

/-- A sink is full, or there is room for one more write. -/
theorem full_or_room (s : Sink) :
    s.room = some 0 ∨ ∃ room : Option Nat, s.room = room.map (· + 1) := by
  cases hroom : s.room with
  | none => exact Or.inr ⟨none, rfl⟩
  | some k =>
      cases k with
      | zero => exact Or.inl rfl
      | succ k => exact Or.inr ⟨some k, rfl⟩

theorem write?_of_full {s : Sink} (h : s.room = some 0) (t : Text) : s.write? t = none := by
  rw [write?, h]

/-- A write takes up room for one. -/
theorem write?_of_room {s : Sink} {room : Option Nat} (h : s.room = room.map (· + 1)) (t : Text) :
    s.write? t = some ⟨room, t :: s.writes⟩ := by
  cases room with
  | none => rw [write?, h, Option.map_none]
  | some k => rw [write?, h, Option.map_some]

end Sink

namespace Repl

namespace Event

/-- The event ends the loop by itself. -/
def ends : Event → Bool
  | line source => source.trim = exitCommand
  | interrupt => false
  | endOfInput | failure _ => true

/-- The source text that the event has for evaluation: a line without the white space around it,
unless nothing is left of it or it ends the loop. -/
def source? : Event → Option Text
  | line source =>
    if source.trim = exitCommand ∨ source.trim = [] then none else some source.trim
  | interrupt | endOfInput | failure _ => none

/-- The error with which the event ends the loop. -/
def error? : Event → Option LoopError
  | failure message => some (.readFailed message)
  | line _ | interrupt | endOfInput => none

/-- A line that is evaluated does not end the loop. -/
theorem ends_of_source? {event : Event} {source : Text} (h : event.source? = some source) :
    event.ends = false := by
  cases event with
  | line text =>
      rw [source?] at h
      split at h
      · cases h
      · rename_i hnot
        exact decide_eq_false fun hexit => hnot (Or.inl hexit)
  | _ => cases h

/-- An event ends the loop, or is passed over, or is evaluated. -/
theorem ends_or_skipped_or_source (event : Event) :
    event.ends = true ∨ (event.ends = false ∧ event.source? = none) ∨
      ∃ source, event.source? = some source := by
  cases hends : event.ends with
  | true => exact Or.inl rfl
  | false =>
      cases hs : event.source? with
      | none => exact Or.inr (Or.inl ⟨rfl, rfl⟩)
      | some source => exact Or.inr (Or.inr ⟨source, rfl⟩)

end Event

/-- The source texts of the events up to the first that ends the loop. -/
def sources (events : List Event) : List Text :=
  (events.takeWhile fun event => !event.ends).filterMap Event.source?

/-- Nothing is evaluated after the event that ends the loop. -/
theorem sources_of_ends {event : Event} (h : event.ends = true) (rest : List Event) :
    sources (event :: rest) = [] := by
  rw [sources, List.takeWhile_cons_of_neg (by simp [h])]
  rfl

/-- An event without a source adds nothing to what is evaluated. -/
theorem sources_of_skipped {event : Event} (h : event.ends = false) (hs : event.source? = none)
    (rest : List Event) : sources (event :: rest) = sources rest := by
  rw [sources, List.takeWhile_cons_of_pos (by simp [h]), List.filterMap_cons_none hs]
  rfl

/-- The source of a line is evaluated before those that come later. -/
theorem sources_of_source {event : Event} {source : Text} (hs : event.source? = some source)
    (rest : List Event) : sources (event :: rest) = source :: sources rest := by
  rw [sources, List.takeWhile_cons_of_pos (by simp [Event.ends_of_source? hs]),
    List.filterMap_cons_some hs]
  rfl

section Steps

variable {n : Nat} {e : EnvId} {event : Event} {p : Progress}

/-- At an event that ends it the loop stops, and has read one event more. -/
theorem respond_of_ends (h : event.ends = true) :
    respond n e event p = some ({ p with reads := p.reads + 1 }, .stop event.error?) := by
  cases event with
  | line text =>
      have hexit : text.trim = exitCommand := of_decide_eq_true h
      simp [respond, hexit, Event.error?]
  | interrupt => cases h
  | endOfInput => rfl
  | failure message => rfl

/-- At an event without a source the loop has only read one event more. -/
theorem respond_of_skipped (h : event.ends = false) (hs : event.source? = none) :
    respond n e event p = some ({ p with reads := p.reads + 1 }, .goOn) := by
  cases event with
  | line text =>
      have hexit : text.trim ≠ exitCommand := of_decide_eq_false h
      have hblank : text.trim = [] := by simpa [Event.source?, hexit] using hs
      have hne : [] ≠ exitCommand := by decide
      simp [respond, hblank, hne]
  | interrupt => rfl
  | endOfInput => cases h
  | failure message => cases h

/-- A line with a source is answered. -/
theorem respond_of_source {source : Text} (hs : event.source? = some source) :
    respond n e event p = answer n e source { p with reads := p.reads + 1 } := by
  cases event with
  | line text =>
      rw [Event.source?] at hs
      split at hs
      · cases hs
      · rename_i hnot
        obtain ⟨hexit, hblank⟩ := not_or.mp hnot
        cases hs
        simp [respond, hexit, hblank]
  | _ => cases hs

/-- If there is room, the result is written on a line of its own. -/
theorem answer_of_room {source text : Text} {reply : Reply} {room : Option Nat}
    (hreply : p.interpreter.evalText e source n = some reply) (htext : reply.result = .ok text)
    (hroom : p.sink.room = room.map (· + 1)) :
    answer n e source p = some (⟨reply.interpreter, ⟨room, (text ++ newline) :: p.sink.writes⟩,
      p.calls ++ reply.calls, p.reads⟩, .goOn) := by
  rw [answer, hreply, Option.map_some, htext]
  dsimp only
  rw [Sink.write?_of_room hroom]

/-- If there is no room, the evaluation is kept and the loop stops with a failed write. -/
theorem answer_of_full {source text : Text} {reply : Reply}
    (hreply : p.interpreter.evalText e source n = some reply) (htext : reply.result = .ok text)
    (hroom : p.sink.room = some 0) :
    answer n e source p = some (⟨reply.interpreter, p.sink, p.calls ++ reply.calls, p.reads⟩,
      .stop (some .writeFailed)) := by
  rw [answer, hreply, Option.map_some, htext]
  dsimp only
  rw [Sink.write?_of_full hroom]

theorem loop_of_stop {rest : List Event} {p' : Progress} {failure : Option LoopError}
    (h : respond n e event p = some (p', .stop failure)) :
    loop n e (event :: rest) p = some (p', failure) := by
  rw [loop, h]

theorem loop_of_goOn {p' : Progress} (h : respond n e event p = some (p', .goOn))
    (rest : List Event) : loop n e (event :: rest) p = loop n e rest p' := by
  rw [loop, h]

end Steps

/-- Why the loop stops at an event, after those before it, if there is room for so many writes:
the event ends it, or the result of the event is the first that cannot be written. -/
def Stops (room : Option Nat) (before : List Event) (event : Event)
    (failure : Option LoopError) : Prop :=
  (event.ends = true ∧ (∀ k, room = some k → (before.filterMap Event.source?).length ≤ k) ∧
    failure = event.error?) ∨
  (room = some (before.filterMap Event.source?).length ∧ event.source?.isSome = true ∧
    failure = some .writeFailed)

/-- The loop stops at the last of so many events, and not at one before it.  After all events
comes the end of the input. -/
def StopsAfter (taken : Nat) (room : Option Nat) (events : List Event)
    (failure : Option LoopError) : Prop :=
  ∃ before event after, events ++ [.endOfInput] = before ++ event :: after ∧
    taken = before.length + 1 ∧ (∀ b ∈ before, b.ends = false) ∧ Stops room before event failure

section Stopping

variable {event : Event} {rest : List Event} {taken : Nat} {room : Option Nat}
  {failure : Option LoopError}

/-- The loop stops at its first event if that ends it. -/
theorem StopsAfter.of_ends (h : event.ends = true) {events after : List Event}
    (hevents : events ++ [.endOfInput] = event :: after) :
    StopsAfter 1 room events event.error? :=
  ⟨[], event, after, hevents, rfl, by simp, Or.inl ⟨h, fun _ _ => Nat.zero_le _, rfl⟩⟩

/-- Without room for a write the loop stops at its first source. -/
theorem StopsAfter.of_full {source : Text} (hs : event.source? = some source)
    (rest : List Event) : StopsAfter 1 (some 0) (event :: rest) (some .writeFailed) :=
  ⟨[], event, rest ++ [.endOfInput], rfl, rfl, by simp, Or.inr ⟨rfl, by rw [hs]; rfl, rfl⟩⟩

/-- An event at which the loop does not stop is one more before the event at which it does. -/
theorem StopsAfter.cons {room' : Option Nat} (hgoes : event.ends = false)
    (hstops : ∀ before last, Stops room before last failure →
      Stops room' (event :: before) last failure)
    (h : StopsAfter taken room rest failure) :
    StopsAfter (taken + 1) room' (event :: rest) failure := by
  obtain ⟨before, last, after, hsplit, htaken, hbefore, hlast⟩ := h
  refine ⟨event :: before, last, after, ?_, ?_, ?_, hstops before last hlast⟩
  · rw [List.cons_append, hsplit, List.cons_append]
  · rw [htaken, List.length_cons]
  · exact List.forall_mem_cons.mpr ⟨hgoes, hbefore⟩

/-- An event without a source does not change where the room runs out. -/
theorem Stops.cons_skipped (hs : event.source? = none) {before : List Event} {last : Event}
    (h : Stops room before last failure) : Stops room (event :: before) last failure := by
  rw [Stops, List.filterMap_cons_none hs]
  exact h

/-- A line that is written takes room for one write. -/
theorem Stops.cons_source {source : Text} (hs : event.source? = some source)
    {before : List Event} {last : Event} (h : Stops room before last failure) :
    Stops (room.map (· + 1)) (event :: before) last failure := by
  rw [Stops, List.filterMap_cons_some hs, List.length_cons]
  cases room with
  | none => simpa [Stops] using h
  | some k => simpa [Stops] using h

end Stopping

/-- How the loop goes on from `p` to its end in `p'`, where the source texts that are evaluated
give these texts and make these calls. -/
structure Course (events : List Event) (p : Progress) (texts : List Text) (calls : Array Call)
    (p' : Progress) (failure : Option LoopError) : Prop where
  calls : p'.calls = p.calls ++ calls
  writes : p'.sink.writes.reverse =
    p.sink.writes.reverse ++ (firstOf p.sink.room texts).map (· ++ newline)
  stop : ∃ taken, p'.reads = p.reads + taken ∧ StopsAfter taken p.sink.room events failure

namespace Course

variable {event : Event} {rest : List Event} {p p' : Progress} {texts : List Text}
  {calls : Array Call} {failure : Option LoopError}

/-- An event that ends the loop is the last, be it one of the events or the end of the input
after them. -/
theorem ends (h : event.ends = true) {events after : List Event}
    (hevents : events ++ [.endOfInput] = event :: after) (p : Progress) :
    Course events p [] #[] { p with reads := p.reads + 1 } event.error? where
  calls := (Array.append_empty).symm
  writes := by rw [firstOf_nil, List.map_nil, List.append_nil]
  stop := ⟨1, rfl, .of_ends h hevents⟩

/-- So is a line whose result cannot be written. -/
theorem full {source text : Text} (hs : event.source? = some source) (hroom : p.sink.room = some 0)
    (i : Interpreter) (calls : Array Call) (rest : List Event) :
    Course (event :: rest) p [text] calls ⟨i, p.sink, p.calls ++ calls, p.reads + 1⟩
      (some .writeFailed) where
  calls := rfl
  writes := by rw [hroom, firstOf, List.take_zero, List.map_nil, List.append_nil]
  stop := ⟨1, rfl, by rw [hroom]; exact .of_full hs rest⟩

/-- An event without a source text is only taken. -/
theorem skip (h : event.ends = false) (hs : event.source? = none)
    (hrest : Course rest { p with reads := p.reads + 1 } texts calls p' failure) :
    Course (event :: rest) p texts calls p' failure where
  calls := hrest.calls
  writes := hrest.writes
  stop := by
    obtain ⟨taken, hreads, hstop⟩ := hrest.stop
    refine ⟨taken + 1, ?_, hstop.cons h fun _ _ => Stops.cons_skipped hs⟩
    rw [hreads, Nat.add_assoc, Nat.add_comm 1]

/-- A line whose result is written puts its own calls and its text before those of the rest. -/
theorem line {source text : Text} {room : Option Nat} {i : Interpreter} {own : Array Call}
    (hs : event.source? = some source) (hroom : p.sink.room = room.map (· + 1))
    (hrest : Course rest ⟨i, ⟨room, (text ++ newline) :: p.sink.writes⟩, p.calls ++ own,
      p.reads + 1⟩ texts calls p' failure) :
    Course (event :: rest) p (text :: texts) (own ++ calls) p' failure where
  calls := by rw [hrest.calls, Array.append_assoc]
  writes := by
    rw [hrest.writes, hroom, firstOf_cons, List.map_cons, List.reverse_cons, List.append_assoc]
    rfl
  stop := by
    obtain ⟨taken, hreads, hstop⟩ := hrest.stop
    refine ⟨taken + 1, ?_, ?_⟩
    · rw [hreads, Nat.add_assoc, Nat.add_comm 1]
    · rw [hroom]
      exact hstop.cons (Event.ends_of_source? hs) fun _ _ => Stops.cons_source hs

end Course

/-- **The run.**  If the source texts are evaluated for which there is room, and one more, and all
of them give a text, then the loop makes just these evaluations. -/
theorem loop_of_evalLines {n : Nat} {e : EnvId} {events : List Event} {p : Progress}
    {texts : List Text} {calls : Array Call} {last : Interpreter}
    (h : p.interpreter.evalLines n e (firstOf (p.sink.room.map (· + 1)) (sources events)) =
      some (texts.map .ok, calls, last)) :
    ∃ p' failure, loop n e events p = some (p', failure) ∧ p'.interpreter = last ∧
      Course events p texts calls p' failure := by
  -- The induction is for every progress at once: a line that is written leaves less room, and
  -- the evaluations that are still to be made start in another interpreter.
  induction events generalizing p texts calls with
  | nil =>
      rw [show sources [] = [] from rfl, firstOf_nil] at h
      obtain ⟨rfl, rfl, rfl⟩ := Interpreter.evalLines_nil_shown h
      exact ⟨_, _, rfl, rfl, .ends (show Event.endOfInput.ends = true from rfl) rfl p⟩
  | cons event rest ih =>
      rcases event.ends_or_skipped_or_source with hends | ⟨hgoes, hs⟩ | ⟨source, hs⟩
      · rw [sources_of_ends hends, firstOf_nil] at h
        obtain ⟨rfl, rfl, rfl⟩ := Interpreter.evalLines_nil_shown h
        exact ⟨_, _, loop_of_stop (respond_of_ends hends), rfl, .ends hends rfl p⟩
      · rw [sources_of_skipped hgoes hs] at h
        obtain ⟨p', failure, hloop, hlast, hcourse⟩ := ih (p := { p with reads := p.reads + 1 }) h
        refine ⟨p', failure, ?_, hlast, hcourse.skip hgoes hs⟩
        rw [loop_of_goOn (respond_of_skipped hgoes hs)]
        exact hloop
      · rw [sources_of_source hs, firstOf_cons] at h
        obtain ⟨reply, text, more, others, hreply, htext, hmore, rfl, rfl⟩ :=
          Interpreter.evalLines_cons_shown h
        rcases p.sink.full_or_room with hfull | ⟨room, hroom⟩
        · -- This is the one line more than there is room for: nothing follows it.
          rw [hfull, firstOf, List.take_zero] at hmore
          obtain ⟨rfl, rfl, rfl⟩ := Interpreter.evalLines_nil_shown hmore
          have hstop := (respond_of_source hs).trans (answer_of_full hreply htext hfull)
          rw [Array.append_empty]
          exact ⟨_, _, loop_of_stop hstop, rfl, .full hs hfull _ _ rest⟩
        · rw [hroom] at hmore
          obtain ⟨p', failure, hloop, hlast, hcourse⟩ :=
            ih (p := ⟨reply.interpreter, ⟨room, (text ++ newline) :: p.sink.writes⟩,
              p.calls ++ reply.calls, p.reads + 1⟩) hmore
          refine ⟨p', failure, ?_, hlast, hcourse.line hs hroom⟩
          rw [loop_of_goOn ((respond_of_source hs).trans (answer_of_room hreply htext hroom))]
          exact hloop

section MoreSteps

variable {n m : Nat} {e : EnvId} {p : Progress}

/-- With more steps to spend a line is answered as before. -/
theorem answer_eq_of_le (hle : n ≤ m) {source : Text} {r : Progress × Verdict}
    (h : answer n e source p = some r) : answer m e source p = some r := by
  obtain ⟨reply, hreply, hr⟩ := Option.map_eq_some_iff.mp h
  exact Option.map_eq_some_iff.mpr ⟨reply, Interpreter.evalText_eq_of_le hle hreply, hr⟩

theorem respond_eq_of_le (hle : n ≤ m) {event : Event} {r : Progress × Verdict}
    (h : respond n e event p = some r) : respond m e event p = some r := by
  rcases event.ends_or_skipped_or_source with hends | ⟨hgoes, hs⟩ | ⟨source, hs⟩
  · rw [respond_of_ends hends] at h ⊢
    exact h
  · rw [respond_of_skipped hgoes hs] at h ⊢
    exact h
  · rw [respond_of_source hs] at h ⊢
    exact answer_eq_of_le hle h

/-- More steps do not change the course of the loop. -/
theorem loop_eq_of_le (hle : n ≤ m) {events : List Event} {r : Progress × Option LoopError}
    (h : loop n e events p = some r) : loop m e events p = some r := by
  induction events generalizing p with
  | nil => exact h
  | cons event rest ih =>
      cases hrespond : respond n e event p with
      | none =>
          rw [loop, hrespond] at h
          cases h
      | some found =>
          obtain ⟨p', verdict⟩ := found
          have hlater := respond_eq_of_le hle hrespond
          cases verdict with
          | stop failure =>
              rw [loop_of_stop hrespond] at h
              rw [loop_of_stop hlater]
              exact h
          | goOn =>
              rw [loop_of_goOn hrespond] at h
              rw [loop_of_goOn hlater]
              exact ih h

end MoreSteps

open Interpreter

/-- **The loop.**  Let a user environment with a limited call stack have evaluated any source
texts, and let the loop run in it on any events, with room for any number of writes.  It comes to
an end, the same for all numbers of steps that suffice.

It evaluates, in order and each once, the lines that have to be evaluated before an event ends
the loop, but none after the first whose result cannot be written; the calls it makes are the
calls of these evaluations, and it leaves the interpreter that they leave.  All of them have a
text to be shown, and as many of these are written as there is room for, each with a line feed.
It takes the events up to the one at which it stops, and has an error if that one is a failure of
the input or its result cannot be written, and no other. -/
theorem loop_evaluates_lines_until_it_stops {i i' : Interpreter} {settings : List Setting}
    {history : List Text} {m : Nat} {shown : List (EnvId × Except Panic Text)}
    (hlimit : 0 < ((i.newUser settings).2.stackOf i.nextEnv).maxHeight)
    (hhistory : (i.newUser settings).2.evalTexts m (history.map (i.nextEnv, ·)) =
      some (shown, i'))
    (events : List Event) (room : Option Nat) :
    ∃ bound p failure texts,
      (∀ n ≥ bound,
        loop n i.nextEnv events (start i' room) = some (p, failure) ∧
        i'.evalLines n i.nextEnv (firstOf (room.map (· + 1)) (sources events)) =
          some (texts.map .ok, p.calls, p.interpreter)) ∧
      (∀ n r, loop n i.nextEnv events (start i' room) = some r → r = (p, failure)) ∧
      p.sink.writes.reverse = (firstOf room texts).map (· ++ newline) ∧
      StopsAfter p.reads room events failure := by
  have hroot : Rooted i.nextEnv i' := (newUser_rooted i settings hlimit).evalTexts hhistory
  obtain ⟨bound, texts, calls, last, hlines⟩ :=
    hroot.exists_evalLines (firstOf (room.map (· + 1)) (sources events))
  obtain ⟨p, failure, hloop, rfl, hcourse⟩ := loop_of_evalLines (p := start i' room) hlines
  have hcalls : calls = p.calls := by rw [hcourse.calls, start, Array.empty_append]
  refine ⟨bound, p, failure, texts, ?_, ?_, ?_, ?_⟩
  · intro n hn
    exact ⟨loop_eq_of_le hn hloop, hcalls ▸ evalLines_eq_of_le hn hlines⟩
  · intro n r hr
    have hmax := loop_eq_of_le (Nat.le_max_left n bound) hr
    rw [loop_eq_of_le (Nat.le_max_right n bound) hloop] at hmax
    exact (Option.some.inj hmax).symm
  · exact hcourse.writes
  · obtain ⟨taken, hreads, hstop⟩ := hcourse.stop
    rw [hreads, start, Nat.zero_add]
    exact hstop

/-- Only two results can be written: the third line is a definition that stays although its result
is lost, and the fourth is not taken any more. -/
theorem definition_stays_when_its_result_is_lost :
    ∃ shown i', 0 < ((empty.newUser [.maxHeight 4]).2.stackOf empty.nextEnv).maxHeight ∧
      (empty.newUser [.maxHeight 4]).2.evalTexts 200
        ((["(def x 1)"] : List Text).map (empty.nextEnv, ·)) = some (shown, i') ∧
      ∃ events : List Event,
        events = [.interrupt, .line " (def y x) ", .line "  ", .line "(first y)",
          .line "(def z y)", .line "z"] ∧
        sources events = ["(def y x)", "(first y)", "(def z y)", "z"] ∧
        ∃ (bound : Nat) (p : Progress) (texts : List Text),
          (∀ n ≥ bound,
            loop n empty.nextEnv events (start i' (some 2)) = some (p, some .writeFailed) ∧
            i'.evalLines n empty.nextEnv ["(def y x)", "(first y)", "(def z y)"] =
              some (texts.map .ok, p.calls, p.interpreter)) ∧
          p.sink.writes.reverse = (texts.take 2).map (· ++ newline) ∧ p.reads = 5 ∧
          StopsAfter 5 (some 2) events (some .writeFailed) ∧
          ((p.interpreter.heap.bindings empty.nextEnv).find? "z").isSome = true := by
  have hlimit : 0 < ((empty.newUser [.maxHeight 4]).2.stackOf empty.nextEnv).maxHeight := by
    decide +kernel
  obtain ⟨⟨shown, i'⟩, hhistory, hcomputed⟩ := Option.bind_eq_some_iff.mp
    (show ((empty.newUser [.maxHeight 4]).2.evalTexts 200
        ((["(def x 1)"] : List Text).map (empty.nextEnv, ·))).bind (fun r =>
          (loop 200 empty.nextEnv [.interrupt, .line " (def y x) ", .line "  ", .line "(first y)",
            .line "(def z y)", .line "z"] (start r.2 (some 2))).map fun x =>
              (x.2, x.1.reads,
                ((x.1.interpreter.heap.bindings empty.nextEnv).find? "z").isSome)) =
        some (some .writeFailed, 5, true) by decide +kernel)
  obtain ⟨⟨p, failure⟩, hloop, hfields⟩ := Option.map_eq_some_iff.mp hcomputed
  obtain ⟨bound, last, error, texts, hruns, hunique, hwrites, hstop⟩ :=
    loop_evaluates_lines_until_it_stops hlimit hhistory
      [.interrupt, .line " (def y x) ", .line "  ", .line "(first y)", .line "(def z y)",
        .line "z"] (some 2)
  obtain ⟨rfl, rfl⟩ := Prod.mk.inj (hunique 200 _ hloop)
  obtain ⟨rfl, hreads, hbound⟩ : failure = some .writeFailed ∧ p.reads = 5 ∧
      ((p.interpreter.heap.bindings empty.nextEnv).find? "z").isSome = true := by
    simpa using hfields
  rw [hreads] at hstop
  exact ⟨shown, i', hlimit, hhistory, _, rfl, by decide +kernel, bound, p, texts, hruns, hwrites,
    hreads, hstop, hbound⟩

end Repl

end LexLisp
