import Mathlib.Data.List.Forall2
import LexLisp.Command.Execution
import LexLisp.Proofs.FreshEnvironments
import LexLisp.Proofs.LoopCourse
import LexLisp.Proofs.ReadOneOrAll

/-!
# A program and the loop

A program is read as a whole, with `readAll`, and evaluated up to its first failure; the loop
reads line by line, with `read`, and goes on after a failure.  Where every line is an
expression the two do the same work (`program_and_loop_agree`).

Both are compared with `Interpreter.evalEach`, which evaluates expressions in order whatever
comes of them.  The program has its outcomes up to the first that is no value
(`Command.evalProgram_of_evalEach`), and the loop writes all of them, one by one
(`Repl.loop_eq_evalEach`).  As the two work in environments of their own, each of these has
to be the twin of the other.
-/

namespace LexLisp

open Grammar

namespace Outcome

/-- The outcome is a value. -/
def isValue : Outcome → Bool
  | value _ => true
  | failure _ => false

/-- What is written for an outcome that can be shown. -/
def line (outcome : Outcome) : Text :=
  match outcome.shown with
  | .ok text => text ++ newline
  | .error _ => []

/-- An outcome is shown on the same line under other names. -/
theorem line_rename (f : EnvId → EnvId) (outcome : Outcome) :
    (outcome.rename f).line = outcome.line := by
  rw [line, line, shown_rename]

end Outcome

namespace Interpreter

/-- Evaluate expressions in order, whatever comes of them. -/
def evalEach (steps : Nat) (e : EnvId) : List Value → Interpreter → Option (List Outcome)
  | [], _ => some []
  | expr :: rest, i =>
    match i.eval e expr steps with
    | none => none
    | some ev => (evalEach steps e rest ev.interpreter).map (ev.outcome :: ·)

/-- Just the first `k` expressions have values, evaluated in order: the next one fails, if
there is one.  Nothing is said of those after it. -/
def FirstFailureAt (k steps : Nat) (e : EnvId) (exprs : List Value) (i : Interpreter) : Prop :=
  (evalEach steps e (exprs.take (k + 1)) i).map
    (fun outcomes => (outcomes.takeWhile Outcome.isValue).length) = some k

instance (k steps : Nat) (e : EnvId) (exprs : List Value) (i : Interpreter) :
    Decidable (FirstFailureAt k steps e exprs i) :=
  inferInstanceAs (Decidable (_ = some k))

section EvalEach

variable {i i' : Interpreter} {e e' : EnvId} {n m : Nat} {exprs : List Value}
  {outcomes : List Outcome}

/-- Expressions are evaluated one after another, each in what the one before has left. -/
theorem evalEach_cons_iff {expr : Value} :
    evalEach n e (expr :: exprs) i = some outcomes ↔
      ∃ ev rest, i.eval e expr n = some ev ∧ evalEach n e exprs ev.interpreter = some rest ∧
        outcomes = ev.outcome :: rest := by
  constructor
  · intro h
    rw [evalEach] at h
    split at h
    · cases h
    · rename_i ev hev
      obtain ⟨rest, hrest, rfl⟩ := Option.map_eq_some_iff.mp h
      exact ⟨ev, rest, hev, hrest, rfl⟩
  · rintro ⟨ev, rest, hev, hrest, rfl⟩
    rw [evalEach, hev]
    dsimp only
    rw [hrest]
    rfl

/-- Every expression has an outcome. -/
theorem length_evalEach (h : evalEach n e exprs i = some outcomes) :
    outcomes.length = exprs.length := by
  induction exprs generalizing i outcomes with
  | nil =>
      cases h
      rfl
  | cons expr rest ih =>
      obtain ⟨ev, more, -, hmore, rfl⟩ := evalEach_cons_iff.mp h
      rw [List.length_cons, List.length_cons, ih hmore]

/-- The first expressions do not depend on those after them. -/
theorem evalEach_take (h : evalEach n e exprs i = some outcomes) (k : Nat) :
    evalEach n e (exprs.take k) i = some (outcomes.take k) := by
  induction exprs generalizing i outcomes k with
  | nil =>
      cases h
      rw [List.take_nil, List.take_nil, evalEach]
  | cons expr rest ih =>
      obtain ⟨ev, more, hev, hmore, rfl⟩ := evalEach_cons_iff.mp h
      cases k with
      | zero => rfl
      | succ k => exact evalEach_cons_iff.mpr ⟨ev, _, hev, ih hmore k, rfl⟩

/-- More steps do not change the outcomes. -/
theorem evalEach_eq_of_le (hle : n ≤ m) (h : evalEach n e exprs i = some outcomes) :
    evalEach m e exprs i = some outcomes := by
  induction exprs generalizing i outcomes with
  | nil => exact h
  | cons expr rest ih =>
      obtain ⟨ev, more, hev, hmore, rfl⟩ := evalEach_cons_iff.mp h
      exact evalEach_cons_iff.mpr ⟨ev, more, eval_eq_of_le hle hev, ih hmore, rfl⟩

/-- The outcomes do not depend on the number of steps. -/
theorem evalEach_unique {outcomes' : List Outcome} (h : evalEach n e exprs i = some outcomes)
    (h' : evalEach m e exprs i = some outcomes') : outcomes = outcomes' := by
  have hmax := evalEach_eq_of_le (Nat.le_max_left n m) h
  rw [evalEach_eq_of_le (Nat.le_max_right n m) h'] at hmax
  exact (Option.some.inj hmax).symm

/-- Evaluation that gets past the first failure begins as the one that stops there. -/
theorem take_of_evalEach {k l : Nat} {outcomes' : List Outcome}
    (h : evalEach n e (exprs.take (k + 1)) i = some outcomes)
    (h' : evalEach m e (exprs.take l) i = some outcomes') (hl : k < l ∨ exprs.length ≤ l) :
    outcomes'.take (k + 1) = outcomes := by
  have hexprs : (exprs.take l).take (k + 1) = exprs.take (k + 1) := by
    rw [List.take_take, List.take_eq_take_iff]
    omega
  have htake := evalEach_take h' (k + 1)
  rw [hexprs] at htake
  exact evalEach_unique htake h

/-- Under a limit on the call stack every expression has its outcome. -/
theorem evalEach_returns (he : e < i.heap.size) (hlimit : 0 < (i.stackOf e).maxHeight)
    (exprs : List Value) : ∃ n outcomes, evalEach n e exprs i = some outcomes := by
  induction exprs generalizing i with
  | nil => exact ⟨0, [], rfl⟩
  | cons expr rest ih =>
      obtain ⟨n₁, ev, hev⟩ := eval_returns i e expr hlimit
      have he' : e < ev.interpreter.heap.size :=
        Nat.lt_of_lt_of_le he (run_evolves (eval_goesOn e expr) hev).size_le
      have hlimit' : 0 < (ev.interpreter.stackOf e).maxHeight := by
        rw [stackOf, eval_session? hev he]
        exact hlimit
      obtain ⟨n₂, more, hmore⟩ := ih he' hlimit'
      have hlater := eval_eq_of_le (Nat.le_max_left n₁ n₂) hev
      have hlaterMore := evalEach_eq_of_le (Nat.le_max_right n₁ n₂) hmore
      exact ⟨max n₁ n₂, _, evalEach_cons_iff.mpr ⟨ev, more, hlater, hlaterMore, rfl⟩⟩

/-- Where all outcomes are known, so is the first failure. -/
theorem firstFailureAt_of_evalEach (h : evalEach n e exprs i = some outcomes) :
    FirstFailureAt (outcomes.takeWhile Outcome.isValue).length n e exprs i := by
  rw [FirstFailureAt, evalEach_take h, Option.map_some, ← List.take_takeWhile, List.length_take,
    Nat.min_eq_right (Nat.le_succ _)]

/-- What is evaluated in a twin gives values and errors, no panics. -/
theorem Twins.evalEach_whole_or_error (h : Twins e i e' i') (hdata : ∀ expr ∈ exprs, expr.IsDatum)
    (heach : evalEach n e exprs i = some outcomes) :
    ∀ outcome ∈ outcomes, (∃ v, v.isWhole = true ∧ outcome = .value v) ∨
      ∃ err, outcome = .failure (.error err) := by
  induction exprs generalizing i i' outcomes with
  | nil =>
      cases heach
      simp
  | cons expr rest ih =>
      obtain ⟨ev, more, hev, hmore, rfl⟩ := evalEach_cons_iff.mp heach
      obtain ⟨hdatum, hrest⟩ := List.forall_mem_cons.mp hdata
      obtain ⟨ev', -, -, hnext⟩ := h.eval hdatum hev
      exact List.forall_mem_cons.mpr ⟨h.whole_or_error hdatum hev, ih hnext hrest hmore⟩

/-- In twins the same is to be written for the same expressions. -/
theorem Twins.evalEach (h : Twins e i e' i') (hdata : ∀ expr ∈ exprs, expr.IsDatum)
    (heach : evalEach n e exprs i = some outcomes) :
    ∃ outcomes', Interpreter.evalEach n e' exprs i' = some outcomes' ∧
      outcomes'.map Outcome.line = outcomes.map Outcome.line := by
  induction exprs generalizing i i' outcomes with
  | nil =>
      cases heach
      exact ⟨[], rfl, rfl⟩
  | cons expr rest ih =>
      obtain ⟨ev, more, hev, hmore, rfl⟩ := evalEach_cons_iff.mp heach
      obtain ⟨hdatum, hrest⟩ := List.forall_mem_cons.mp hdata
      obtain ⟨ev', hev', ⟨f, hout⟩, htwins⟩ := h.eval hdatum hev
      obtain ⟨more', hmore', hlines⟩ := ih htwins hrest hmore
      refine ⟨_, evalEach_cons_iff.mpr ⟨ev', more', hev', hmore', rfl⟩, ?_⟩
      rw [List.map_cons, List.map_cons, hlines, hout, Outcome.line_rename]

end EvalEach

end Interpreter

namespace Command

open Interpreter

/-- A line that is an expression is that expression to a program. -/
theorem readArgument_of_read {arg : Text} {v : Value} (hread : read arg = .ok v)
    (hblank : ¬ Blank arg) (files : Files) : readArgument files true arg = .ok [v] := by
  rw [readArgument, if_pos rfl, readAll_eq_singleton_iff.mpr ⟨hread, hblank⟩]
  rfl

/-- Lines that are expressions are a program of just these. -/
theorem readProgram_of_read {args : List Text} (files : Files)
    (h : ∀ arg ∈ args, ¬ Blank arg ∧ ∃ v, read arg = .ok v) :
    ∃ exprs, readProgram files true args = .ok exprs ∧
      List.Forall₂ (fun arg expr => read arg = .ok expr) args exprs := by
  induction args with
  | nil => exact ⟨[], rfl, .nil⟩
  | cons arg rest ih =>
      obtain ⟨⟨hblank, v, hread⟩, hrest⟩ := List.forall_mem_cons.mp h
      obtain ⟨exprs, hexprs, hall⟩ := ih hrest
      refine ⟨v :: exprs, ?_, .cons hread hall⟩
      rw [readProgram, readArgument_of_read hread hblank, hexprs]
      rfl

/-- **A program.**  Its values are the outcomes up to the first failure, and that failure is
how it ends. -/
theorem evalProgram_of_evalEach {i : Interpreter} {e : EnvId} {n k : Nat} {exprs : List Value}
    {outcomes : List Outcome} (h : evalEach n e (exprs.take (k + 1)) i = some outcomes)
    (hk : (outcomes.takeWhile Outcome.isValue).length = k) :
    ∃ x, evalProgram n e exprs i = some x ∧ x.values.length = k ∧
      outcomes = x.values.map .value ++ (x.failure.map .failure).toList := by
  induction exprs generalizing i k outcomes with
  | nil =>
      cases h
      exact ⟨_, rfl, hk, rfl⟩
  | cons expr rest ih =>
      rw [List.take_succ_cons] at h
      obtain ⟨⟨outcome, calls, i'⟩, more, hev, hmore, rfl⟩ := evalEach_cons_iff.mp h
      cases outcome with
      | value v =>
          obtain ⟨k, rfl⟩ : ∃ k', k = k' + 1 := ⟨_, hk.symm⟩
          obtain ⟨x, hx, hlength, hvalues⟩ := ih hmore (Nat.succ.inj hk)
          refine ⟨{ x with values := v :: x.values, calls := calls ++ x.calls }, ?_, ?_, ?_⟩
          · rw [evalProgram, hev]
            dsimp only
            rw [hx]
            rfl
          · rw [List.length_cons, hlength]
          · rw [hvalues]
            rfl
      | failure f =>
          obtain rfl : 0 = k := hk
          cases hmore
          exact ⟨⟨[], calls, some f, i'⟩, by rw [evalProgram, hev], rfl, rfl⟩

/-- A program has no failure exactly if all its expressions have values. -/
theorem failure_eq_none_iff {i : Interpreter} {e : EnvId} {n k : Nat} {exprs : List Value}
    {outcomes : List Outcome} {x : Execution}
    (h : evalEach n e (exprs.take (k + 1)) i = some outcomes) (hk : x.values.length = k)
    (hout : outcomes = x.values.map .value ++ (x.failure.map .failure).toList) :
    x.failure = none ↔ k = exprs.length := by
  have hlength := length_evalEach h
  rw [hout, List.length_append, List.length_map, hk, List.length_take] at hlength
  cases hf : x.failure with
  | none =>
      rw [hf] at hlength
      have hle : k = min (k + 1) exprs.length := hlength
      simp only [true_iff]
      omega
  | some f =>
      rw [hf] at hlength
      have hlt : k + 1 = min (k + 1) exprs.length := hlength
      simp only [reduceCtorEq, false_iff]
      omega

/-- Values that have texts are printed as they are shown, line by line. -/
theorem printedValues_eq_lines {values : List Value} (h : ∀ v ∈ values, v.isWhole = true) :
    printedValues values = ((values.map Outcome.value).map Outcome.line).flatten := by
  rw [printedValues, List.flatMap_def, List.map_map]
  congr 1
  apply List.map_congr_left
  intro v hv
  rw [Function.comp_apply, Outcome.line, Outcome.shown_of_isWhole (h v hv)]

/-- Where the first lines written are those for the outcomes of a program, the values come
first and then its failure. -/
theorem writes_of_outcomes {x : Execution} {k : Nat} {writes : List Text}
    (hk : x.values.length = k) (hwhole : ∀ v ∈ x.values, v.isWhole = true)
    (h : writes.take (k + 1) =
      (x.values.map Outcome.value ++ (x.failure.map Outcome.failure).toList).map Outcome.line) :
    printedValues x.values = (writes.take k).flatten ∧
      ∀ f, x.failure = some f → writes[k]? = some (Outcome.failure f).line := by
  have hlength : ((x.values.map Outcome.value).map Outcome.line).length = k := by
    rw [List.length_map, List.length_map, hk]
  rw [List.map_append] at h
  constructor
  · have hvalues : writes.take k = (x.values.map Outcome.value).map Outcome.line := by
      rw [← Nat.min_eq_left (Nat.le_succ k), ← List.take_take, h, List.take_left' hlength]
    rw [hvalues, printedValues_eq_lines hwhole]
  · intro f hf
    rw [hf] at h
    calc writes[k]?
        = (writes.take (k + 1))[k]? := by
          rw [List.getElem?_take, if_pos (Nat.lt_succ_self k)]
      _ = ((x.values.map Outcome.value).map Outcome.line ++ [(Outcome.failure f).line])[k]? := by
          rw [h]
          rfl
      _ = some (Outcome.failure f).line := by
          rw [← hlength, List.getElem?_concat_length]

end Command

namespace Repl

open Interpreter

/-- The line is an expression that stands on its own. -/
structure Expression (source : Text) : Prop where
  ne_nil : source ≠ []
  trimmed : source.trim = source
  ne_exit : source ≠ exitCommand
  readable : ∃ v, read source = .ok v

/-- Whether a line is an expression that stands on its own can be decided. -/
theorem expression_iff {source : Text} :
    Expression source ↔ source ≠ [] ∧ source.trim = source ∧ source ≠ exitCommand ∧
      (read source).isOk = true := by
  constructor
  · rintro ⟨hne, htrim, hexit, v, hv⟩
    exact ⟨hne, htrim, hexit, by rw [hv]; rfl⟩
  · rintro ⟨hne, htrim, hexit, hok⟩
    refine ⟨hne, htrim, hexit, ?_⟩
    cases hread : read source with
    | ok v => exact ⟨v, rfl⟩
    | error failure =>
        rw [hread] at hok
        cases hok

instance (source : Text) : Decidable (Expression source) :=
  decidable_of_iff _ expression_iff.symm

theorem trim_of_blank {t : Text} (h : Blank t) : t.trim = [] := by
  have hleft : t.trimLeft = [] :=
    List.dropWhile_eq_nil_iff.mpr (List.all_eq_true.mp (isBlank_iff.mpr h))
  rw [Text.trim, hleft]
  rfl

theorem Expression.not_blank {source : Text} (h : Expression source) : ¬ Blank source := by
  intro hblank
  exact h.ne_nil (h.trimmed.symm.trans (trim_of_blank hblank))

section Lines

variable {n : Nat} {e : EnvId} {source : Text} {expr : Value} {p : Progress}

/-- Such a line is evaluated as it is. -/
theorem Expression.source?_line (h : Expression source) :
    Event.source? (.line source) = some source := by
  rw [Event.source?, h.trimmed, if_neg (not_or.mpr ⟨h.ne_exit, h.ne_nil⟩)]

/-- A line whose evaluation does not end holds the loop up. -/
theorem loop_of_none (h : Expression source) (hread : p.interpreter.read e source = .ok expr)
    (hev : p.interpreter.eval e expr n = none) (rest : List Event) :
    loop n e (.line source :: rest) p = none := by
  have htext : p.interpreter.evalText e source n = none := by
    rw [evalText, hread]
    dsimp only
    rw [hev, Option.map_none]
  rw [loop, respond_of_source h.source?_line, answer]
  dsimp only
  rw [htext]
  rfl

/-- A line whose outcome can be shown takes the loop a step further. -/
theorem loop_of_shown (h : Expression source) (hread : p.interpreter.read e source = .ok expr)
    {ev : Evaluation} (hev : p.interpreter.eval e expr n = some ev) {text : Text}
    (hshown : ev.outcome.shown = .ok text) (hroom : p.sink.room = none) (rest : List Event) :
    loop n e (.line source :: rest) p = loop n e rest
      ⟨ev.interpreter, ⟨none, (text ++ newline) :: p.sink.writes⟩, p.calls ++ ev.calls,
        p.reads + 1⟩ := by
  have htext : p.interpreter.evalText e source n = some ⟨.ok text, ev.calls, ev.interpreter⟩ :=
    evalText_eq_some_iff.mpr (Or.inr ⟨expr, ev, hread, hev, by rw [hshown]⟩)
  have hone : p.sink.room = Option.map (· + 1) none := hroom
  rw [loop_of_goOn ((respond_of_source h.source?_line).trans (answer_of_room htext rfl hone))]

end Lines

/-- **The loop.**  It writes every outcome, one by one, and ends without an error. -/
theorem loop_eq_evalEach {n : Nat} {e e' : EnvId} {i' : Interpreter} {lines : List Text}
    {exprs : List Value} {p : Progress} (htwins : Twins e p.interpreter e' i')
    (hreader : p.interpreter.hasReader e = true) (hroom : p.sink.room = none)
    (hlines : ∀ source ∈ lines, Expression source)
    (hexprs : List.Forall₂ (fun source expr => read source = .ok expr) lines exprs) :
    (loop n e (lines.map .line) p).map (fun r => (r.1.sink.writes, r.2)) =
      (evalEach n e exprs p.interpreter).map fun outcomes =>
        ((outcomes.map Outcome.line).reverse ++ p.sink.writes, none) := by
  induction hexprs generalizing p i' with
  | nil => rfl
  | @cons source expr lines exprs hread hexprs ih =>
      obtain ⟨hsource, hrest⟩ := List.forall_mem_cons.mp hlines
      have hdatum := read_isDatum hread
      have hread' : p.interpreter.read e source = .ok expr := by
        rw [Interpreter.read, if_pos hreader, hread]
      rw [List.map_cons, evalEach]
      cases hev : p.interpreter.eval e expr n with
      | none =>
          rw [loop_of_none hsource hread' hev]
          rfl
      | some ev =>
          obtain ⟨ev', -, -, hnext⟩ := htwins.eval hdatum hev
          obtain ⟨text, hshown⟩ := Outcome.exists_shown (htwins.whole_or_error hdatum hev)
          have hreader' : ev.interpreter.hasReader e = true := by
            rw [hasReader, eval_session? hev htwins.lt]
            exact hreader
          have hline : ev.outcome.line = text ++ newline := by rw [Outcome.line, hshown]
          have hlater := ih (p := ⟨ev.interpreter, ⟨none, (text ++ newline) :: p.sink.writes⟩,
            p.calls ++ ev.calls, p.reads + 1⟩) hnext hreader' rfl hrest
          rw [loop_of_shown hsource hread' hev hshown hroom, hlater, Option.map_map, ← hline]
          congr 1
          funext outcomes
          simp

section Fresh

variable {n : Nat} {e e' : EnvId} {i i' : Interpreter} {lines : List Text} {exprs : List Value}

/-- All that is read from lines is data. -/
theorem isDatum_of_read
    (h : List.Forall₂ (fun source expr => read source = .ok expr) lines exprs) :
    ∀ expr ∈ exprs, expr.IsDatum := by
  induction h with
  | nil => simp
  | cons hread _ ih => exact List.forall_mem_cons.mpr ⟨read_isDatum hread, ih⟩

/-- What the loop has written is what there is to write for the outcomes in a twin of its
environment. -/
theorem exists_evalEach_of_loop (htwins : Twins e' i' e i) (hreader : i'.hasReader e' = true)
    (hlines : ∀ source ∈ lines, Expression source)
    (hexprs : List.Forall₂ (fun source expr => read source = .ok expr) lines exprs)
    {p : Progress} {failure : Option LoopError}
    (h : loop n e' (lines.map .line) (start i' none) = some (p, failure)) :
    ∃ outcomes, evalEach n e exprs i = some outcomes ∧ failure = none ∧
      p.sink.writes.reverse = outcomes.map Outcome.line := by
  have hloop := loop_eq_evalEach (n := n) (p := start i' none) htwins hreader rfl hlines hexprs
  rw [h, Option.map_some] at hloop
  obtain ⟨outcomes', heach', hresult⟩ := Option.map_eq_some_iff.mp hloop.symm
  have hwrites : (outcomes'.map Outcome.line).reverse ++ [] = p.sink.writes :=
    congrArg Prod.fst hresult
  obtain ⟨outcomes, heach, hsame⟩ := htwins.evalEach (isDatum_of_read hexprs) heach'
  refine ⟨outcomes, heach, (congrArg Prod.snd hresult).symm, ?_⟩
  rw [hsame, ← hwrites, List.append_nil, List.reverse_reverse]

/-- The loop gets through all lines if their evaluations end in a twin of its environment. -/
theorem exists_loop_of_evalEach (htwins : Twins e i e' i') (hback : Twins e' i' e i)
    (hreader : i'.hasReader e' = true) (hlines : ∀ source ∈ lines, Expression source)
    (hexprs : List.Forall₂ (fun source expr => read source = .ok expr) lines exprs)
    {outcomes : List Outcome} (h : evalEach n e exprs i = some outcomes) :
    ∃ p, loop n e' (lines.map .line) (start i' none) = some (p, none) := by
  have hloop := loop_eq_evalEach (n := n) (p := start i' none) hback hreader rfl hlines hexprs
  obtain ⟨outcomes', heach', -⟩ := htwins.evalEach (isDatum_of_read hexprs) h
  have hstart : evalEach n e' exprs (start i' none).interpreter = some outcomes' := heach'
  rw [hstart, Option.map_some] at hloop
  obtain ⟨⟨p, failure⟩, hp, hresult⟩ := Option.map_eq_some_iff.mp hloop
  obtain rfl : failure = none := congrArg Prod.snd hresult
  exact ⟨p, hp⟩

end Fresh

end Repl

open Interpreter

/-- **A program and the loop agree.**  Let every line be an expression that stands on its own.
As a program the lines are just these expressions, in order.  Let `k` of them have values
before the first that fails, in a fresh environment.  Then the program has these values there,
and it fails unless they are all; and on its way through the lines in another fresh
environment, as soon as it has got past the first failure, the loop has written first what is
printed for the values and next the error with which the program ends.

The loop does get that far, and to the end if the height of the call stack is limited. -/
theorem program_and_loop_agree {i : Interpreter} {settings : List Setting} {lines : List Text}
    (hsettings : (i.newUser settings).1 = none) (hlines : ∀ line ∈ lines, Repl.Expression line)
    (files : Command.Files) (i' : Interpreter) :
    ∃ exprs, Command.readProgram files true lines = .ok exprs ∧
      List.Forall₂ (fun line expr => read line = .ok expr) lines exprs ∧
      (0 < ((i.newUser settings).2.stackOf i.nextEnv).maxHeight →
        ∃ n k p, FirstFailureAt k n i.nextEnv exprs (i.newUser settings).2 ∧
          Repl.loop n i'.nextEnv (lines.map .line) (Repl.start (i'.newUser settings).2 none) =
            some (p, none)) ∧
      ∀ k n, FirstFailureAt k n i.nextEnv exprs (i.newUser settings).2 →
        ∃ x, Command.evalProgram n i.nextEnv exprs (i.newUser settings).2 = some x ∧
          x.values.length = k ∧ (x.failure = none ↔ k = lines.length) ∧
          (∃ p, Repl.loop n i'.nextEnv ((lines.take (k + 1)).map .line)
            (Repl.start (i'.newUser settings).2 none) = some (p, none)) ∧
          ∀ m n' p failure, (k < m ∨ lines.length ≤ m) →
            Repl.loop n' i'.nextEnv ((lines.take m).map .line)
              (Repl.start (i'.newUser settings).2 none) = some (p, failure) →
            failure = none ∧
              Command.printedValues x.values = (p.sink.writes.reverse.take k).flatten ∧
              ∀ f, x.failure = some f → ∃ err, f = .error err ∧
                p.sink.writes.reverse[k]? =
                  some (("Error: " : Text) ++ err.message ++ newline) := by
  obtain ⟨hsame, htwins⟩ := newUser_twins i i' settings
  obtain ⟨-, hback⟩ := newUser_twins i' i settings
  have hreader : (i'.newUser settings).2.hasReader i'.nextEnv = true :=
    newUser_hasReader (Prod.ext (hsame.trans hsettings) rfl)
  obtain ⟨exprs, hprogram, hexprs⟩ := Command.readProgram_of_read files fun line hline =>
    ⟨(hlines line hline).not_blank, (hlines line hline).readable⟩
  have hlength : exprs.length = lines.length := hexprs.length_eq.symm
  have htake : ∀ m, ∀ line ∈ lines.take m, Repl.Expression line :=
    fun m line hline => hlines line (List.mem_of_mem_take hline)
  refine ⟨exprs, hprogram, hexprs, ?_, ?_⟩
  · intro hlimit
    obtain ⟨n, outcomes, heach⟩ := evalEach_returns htwins.lt hlimit exprs
    obtain ⟨p, hp⟩ := Repl.exists_loop_of_evalEach htwins hback hreader hlines hexprs heach
    exact ⟨n, _, p, firstFailureAt_of_evalEach heach, hp⟩
  · intro k n hfirst
    obtain ⟨outcomes, heach, hk⟩ := Option.map_eq_some_iff.mp hfirst
    have hdata : ∀ expr ∈ exprs.take (k + 1), expr.IsDatum :=
      fun expr hexpr => Repl.isDatum_of_read hexprs expr (List.mem_of_mem_take hexpr)
    obtain ⟨x, hx, hvalues, hout⟩ := Command.evalProgram_of_evalEach heach hk
    refine ⟨x, hx, hvalues, ?_, ?_, ?_⟩
    · rw [← hlength]
      exact Command.failure_eq_none_iff heach hvalues hout
    · exact Repl.exists_loop_of_evalEach htwins hback hreader (htake _)
        (List.forall₂_take _ hexprs) heach
    · intro m n' p failure hm hp
      obtain ⟨outcomes', heach', hfailure, hwrites⟩ := Repl.exists_evalEach_of_loop hback hreader
        (htake m) (List.forall₂_take m hexprs) hp
      have hfirst : p.sink.writes.reverse.take (k + 1) = outcomes.map Outcome.line := by
        rw [hwrites, ← List.map_take, take_of_evalEach heach heach' (hlength ▸ hm)]
      have hwhole : ∀ v ∈ x.values, v.isWhole = true := by
        intro v hv
        have hmem : Outcome.value v ∈ outcomes := by simp [hout, hv]
        rcases htwins.evalEach_whole_or_error hdata heach _ hmem with ⟨w, hw, heq⟩ | ⟨err, herr⟩
        · obtain rfl := Outcome.value.inj heq
          exact hw
        · cases herr
      obtain ⟨hprinted, hnext⟩ := Command.writes_of_outcomes hvalues hwhole (hout ▸ hfirst)
      refine ⟨hfailure, hprinted, ?_⟩
      intro f hf
      have hmem : Outcome.failure f ∈ outcomes := by simp [hout, hf]
      rcases htwins.evalEach_whole_or_error hdata heach _ hmem with ⟨v, -, hv⟩ | ⟨err, herr⟩
      · cases hv
      · obtain rfl := Outcome.failure.inj herr
        exact ⟨err, rfl, hnext _ hf⟩

/-- A program fails at its third line, and the loop goes on to the fourth. -/
theorem program_ends_where_loop_goes_on :
    ∃ lines : List Text, lines = ["(def x 2)", "(+ x 1)", "(first x)", "x"] ∧
      (empty.newUser []).1 = none ∧ (∀ line ∈ lines, Repl.Expression line) ∧
      ∃ exprs x p, Command.readProgram (fun _ => .error .notFound) true lines = .ok exprs ∧
        FirstFailureAt 2 100 empty.nextEnv exprs (empty.newUser []).2 ∧
        Command.evalProgram 100 empty.nextEnv exprs (empty.newUser []).2 = some x ∧
        x.values.length = 2 ∧ x.failure ≠ none ∧
        Repl.loop 100 (empty.newUser []).2.nextEnv (lines.map .line)
          (Repl.start ((empty.newUser []).2.newUser []).2 none) = some (p, none) ∧
        p.sink.writes.length = 4 ∧
        Command.printedValues x.values = (p.sink.writes.reverse.take 2).flatten ∧
        ∃ err, x.failure = some (.error err) ∧
          p.sink.writes.reverse[2]? = some (("Error: " : Text) ++ err.message ++ newline) := by
  refine ⟨_, rfl, ?_⟩
  have hsettings : (empty.newUser []).1 = none := by decide +kernel
  have hlines : ∀ line ∈ (["(def x 2)", "(+ x 1)", "(first x)", "x"] : List Text),
      Repl.Expression line := by decide +kernel
  obtain ⟨exprs, hprogram, -, -, hagree⟩ := program_and_loop_agree hsettings hlines
    (fun _ => .error .notFound) (empty.newUser []).2
  have hfirst : FirstFailureAt 2 100 empty.nextEnv exprs (empty.newUser []).2 := by
    have hcomputed : (Command.readProgram (fun _ => .error .notFound) true
        ["(def x 2)", "(+ x 1)", "(first x)", "x"]).toOption.all
          (FirstFailureAt 2 100 empty.nextEnv · (empty.newUser []).2) = true := by
      decide +kernel
    rw [hprogram] at hcomputed
    exact of_decide_eq_true hcomputed
  obtain ⟨⟨p, failure⟩, hp, hlength⟩ := Option.map_eq_some_iff.mp
    (show (Repl.loop 100 (empty.newUser []).2.nextEnv
      ((["(def x 2)", "(+ x 1)", "(first x)", "x"] : List Text).map .line)
      (Repl.start ((empty.newUser []).2.newUser []).2 none)).map
        (fun r => r.1.sink.writes.length) = some 4 by decide +kernel)
  obtain ⟨x, hx, hvalues, hfailure, -, hloop⟩ := hagree 2 100 hfirst
  obtain ⟨rfl, hprinted, herror⟩ := hloop 4 100 p failure (Or.inl (by decide)) hp
  have hfails : x.failure ≠ none := fun hnone => absurd (hfailure.mp hnone) (by decide)
  obtain ⟨f, hf⟩ := Option.ne_none_iff_exists'.mp hfails
  obtain ⟨err, rfl, hwritten⟩ := herror f hf
  exact ⟨hsettings, hlines, exprs, x, p, hprogram, hfirst, hx, hvalues, hfails, hp, hlength,
    hprinted, err, hf, hwritten⟩

end LexLisp
