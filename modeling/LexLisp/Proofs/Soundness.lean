import LexLisp.Proofs.Lockstep
import LexLisp.Proofs.SetUp
import LexLisp.Proofs.SourceTexts

/-!
# Soundness of evaluation

An interpreter that is set up with a user environment and then works on source
texts only, in this environment and in forks of it, binds and returns numbers,
symbols, lists, closures and the native functions of the language
(`Value.Sound`).  A source text makes no lambda and no invalid value, and leaves
no place without a value.

So a primitive finds all its operands, a name is never to be bound to an absent
value, a frame is there whenever one is popped, and a closure is given as many
arguments as it has formals (`Config.Fits`): evaluation ends with a value or with one
of the errors of the language, and never panics.
-/

namespace LexLisp

namespace Value

/-- The value is of a kind that source texts make, in a heap of `n`
environments.  What its parts are is left open. -/
def IsProper (n : Nat) : Value → Prop
  | symbol _ | number _ | list _ => True
  | closure _ _ env => ∃ e, env = some e ∧ e < n
  | native g => g.IsDefault
  | lambda _ _ | invalid _ | absent => False

/-- A value that a source text makes is not absent. -/
theorem IsProper.isAbsent {n : Nat} {v : Value} (h : v.IsProper n) : v.isAbsent = false := by
  cases v with
  | absent => cases h
  | _ => rfl

/-- The value is made of numbers, symbols, lists, closures over environments that
exist, and native functions of the language. -/
def Sound (n : Nat) (v : Value) : Prop := v.Everywhere (IsProper n)

end Value

/-- Work in environments that exist, with sound values. -/
def Policy.sound : Policy where
  since := 0
  home n a := a < n
  ok := Value.IsProper
  home_succ := by
    intro n a _
    rw [Nat.lt_succ_iff_lt_or_eq, or_comm]
  ok_succ := by
    intro n v _ h
    cases v with
    | closure formals body env =>
        obtain ⟨e, he, hlt⟩ := h
        exact ⟨e, he, Nat.lt_succ_of_lt hlt⟩
    | _ => exact h
  symbol _ _ := trivial
  number _ _ := trivial
  list _ _ := trivial
  closure _ _ h := ⟨_, rfl, h⟩
  captured h := by
    obtain ⟨e, he, hlt⟩ := h
    cases he
    exact hlt

namespace Control

/-- A function is entered with as many arguments as it wants. -/
def Fits : Control → Prop
  | enter _ _ callee args => callee.arityError? args.length = none
  | _ => True

end Control

namespace Pending

/-- The function will be entered with as many arguments as it wants, the awaited
one among them. -/
def Fits : Pending → Prop
  | operand _ _ callee done todo => callee.arityError? (done.length + 1 + todo.length) = none
  | _ => True

end Pending

namespace Config

/-- Every function that is or will be entered gets as many arguments as it
wants. -/
def Fits (c : Config) : Prop :=
  c.control.Fits ∧ ∀ p ∈ c.pending, p.Fits

/-- A closure that is entered has one argument for each formal. -/
theorem Fits.length_eq {c : Config} (h : c.Fits) {env : EnvId} {name : Text} {formals : List Text}
    {body : Value} {captured : Option EnvId} {args : List Value}
    (hc : c.control = .enter env name (.closure formals body captured) args) :
    args.length = formals.length := by
  have hfits := h.1
  rw [hc] at hfits
  simpa [Control.Fits, Callee.arityError?] using hfits

end Config

namespace Machine

variable {env : EnvId} {k : List Pending} {s : State} (hk : ∀ p ∈ k, p.Fits)

include hk

theorem done_fits (outcome : Outcome) : Config.Fits ⟨.done outcome, k, s⟩ := ⟨trivial, hk⟩

/-- An expression may be evaluated in front of any pending work that fits. -/
theorem evalFirst_fits (expr : Value) {p : Pending} (hp : p.Fits) :
    Config.Fits ⟨.eval env expr, p :: k, s⟩ :=
  ⟨trivial, List.forall_mem_cons.mpr ⟨hp, hk⟩⟩

/-- Operands as many as the function wants lead to a call that fits. -/
theorem evalOperands_fits (name : Text) {callee : Callee} {done todo : List Value}
    (harity : callee.arityError? (done.length + todo.length) = none) :
    Config.Fits (evalOperands env name callee done todo k s) := by
  cases todo with
  | nil => exact ⟨by simpa [Control.Fits, evalOperands] using harity, hk⟩
  | cons expr rest =>
      refine evalFirst_fits hk expr ?_
      have hcount : done.length + 1 + rest.length = done.length + (expr :: rest).length := by
        rw [List.length_cons]
        omega
      rw [Pending.Fits, hcount]
      exact harity

/-- To take an expression apart enters no function. -/
theorem eval_fits (expr : Value) : Config.Fits (eval env expr k s) := by
  unfold eval
  split
  · split
    · exact done_fits hk _
    · exact done_fits hk _
  · exact done_fits hk _
  · exact evalFirst_fits hk _ trivial
  all_goals exact done_fits hk _

/-- The arguments of a call are counted before they are evaluated. -/
theorem callHead_fits (head f : Value) (operands : List Value) :
    Config.Fits (callHead env head f operands k s) := by
  unfold callHead
  split
  · exact done_fits hk _
  · split
    · exact done_fits hk _
    · rename_i harity
      split
      · exact ⟨harity, hk⟩
      · exact evalOperands_fits hk _ (by simpa using harity)

/-- A value is entered only after its arguments have been counted. -/
theorem callValue_fits (f args : Value) : Config.Fits (callValue env f args k s) := by
  unfold callValue
  split
  · exact done_fits hk _
  · split
    · split
      · exact done_fits hk _
      · rename_i harity
        exact ⟨harity, hk⟩
    · exact done_fits hk _

theorem conclude_fits (r : Except Refusal Value) : Config.Fits (conclude r k s) := by
  cases r with
  | ok v => exact done_fits hk _
  | error refusal => exact done_fits hk _

/-- The rules of primitives enter no function themselves. -/
theorem follow_fits (p : Primitive) (args : List Value) : Config.Fits (follow env p args k s) := by
  unfold follow
  split
  · exact done_fits hk _
  · split
    · exact evalFirst_fits hk _ trivial
    · exact done_fits hk _
  · split
    · split
      · exact done_fits hk _
      · exact done_fits hk _
    · exact done_fits hk _
  · exact evalFirst_fits hk _ trivial
  · exact evalFirst_fits hk _ trivial
  · exact conclude_fits hk _
  · exact conclude_fits hk _
  · exact conclude_fits hk _
  · exact done_fits hk _
  · exact conclude_fits hk _
  · exact conclude_fits hk _
  · exact done_fits hk _

/-- A function that was entered does not enter another at once. -/
theorem runCallee_fits (callee : Callee) (args : List Value) :
    Config.Fits (runCallee env callee args k s) := by
  cases callee with
  | native f =>
      simp only [runCallee, perform]
      split
      · exact follow_fits hk _ _
      · exact done_fits hk _
  | closure formals body captured =>
      simp only [runCallee]
      split
      · exact done_fits hk _
      · exact ⟨trivial, hk⟩

/-- A call adds to the pending work only that it is to be left. -/
theorem enter_fits (name : Text) (callee : Callee) (args : List Value) :
    Config.Fits (enter env name callee args k s) := by
  unfold enter
  split
  · exact done_fits hk _
  · have hleave : Pending.Fits .leave := trivial
    exact runCallee_fits (List.forall_mem_cons.mpr ⟨hleave, hk⟩) _ _

/-- To leave a call enters no function. -/
theorem leave_fits (outcome : Outcome) : Config.Fits (leave outcome k s) := by
  unfold leave
  split
  · exact done_fits hk _
  · exact done_fits hk _

/-- Pending work that fits goes on to work that fits. -/
theorem resume_fits (v : Value) {p : Pending} (hp : p.Fits) : Config.Fits (resume v p k s) := by
  cases p with
  | operator env head operands => exact callHead_fits hk head v operands
  | operand env name callee done todo => exact evalOperands_fits hk name hp
  | leave => exact leave_fits hk _
  | define env name =>
      simp only [resume]
      split
      · exact done_fits hk _
      · exact done_fits hk _
  | choose env yes no =>
      simp only [resume]
      split
      · exact ⟨trivial, hk⟩
      · exact done_fits hk _
  | applied env operands => exact evalFirst_fits hk _ trivial
  | arguments env f =>
      simp only [resume]
      split
      · exact callValue_fits hk f _
      · exact done_fits hk _

end Machine

namespace Config

/-- No step enters a function with too few or too many arguments. -/
theorem Fits.step {c : Config} (h : c.Fits) : c.step.Fits := by
  obtain ⟨control, pending, s⟩ := c
  cases control with
  | eval env expr => exact Machine.eval_fits h.2 expr
  | enter env name callee args => exact Machine.enter_fits h.2 name callee args
  | done outcome =>
      cases pending with
      | nil => exact h
      | cons p k =>
          obtain ⟨hp, hk⟩ := List.forall_mem_cons.mp h.2
          cases outcome with
          | value v => exact Machine.resume_fits hk v hp
          | failure f =>
              cases p with
              | leave => exact Machine.leave_fits hk _
              | _ => exact Machine.done_fits hk _

/-- Whatever a computation that fits reaches fits too. -/
theorem Fits.reaches {c d : Config} (h : c.Fits) (hreach : Reaches c d) : d.Fits :=
  hreach.invariant (fun _ hfits => hfits.step) h

end Config

/-- The kinds of error that evaluation ends with. -/
def ErrorKind.ofEvaluation : List ErrorKind :=
  [undefinedSymbol, notCallable, emptyCall, arityMismatch, typeError, emptyList, argumentCount,
    stackOverflow]

/-- The plain kinds of errors are among those of an evaluation. -/
theorem ErrorKind.plain_subset : plain ⊆ ofEvaluation := by decide

namespace Outcome

/-- A sound value, or an error of one of the kinds that evaluation has. -/
def Sound (n : Nat) : Outcome → Prop
  | value v => v.Sound n
  | failure (.error err) => ∃ kind ∈ ErrorKind.ofEvaluation, err.cause.kind? = some kind
  | failure (.panic _) => False

/-- A sound outcome can be shown. -/
theorem Sound.exists_shown {n : Nat} {outcome : Outcome} (h : outcome.Sound n) :
    ∃ text, outcome.shown = .ok text := by
  apply Outcome.exists_shown
  cases outcome with
  | value v => exact Or.inl ⟨v, Value.Everywhere.isWhole (fun _ => Value.IsProper.isAbsent) h, rfl⟩
  | failure f =>
      cases f with
      | error err => exact Or.inr ⟨err, rfl⟩
      | panic p => cases h

end Outcome

/-- An error at hand is of one of the kinds that evaluation has. -/
def Config.FailsProperly (c : Config) : Prop :=
  ∀ err, c.control = .done (.failure (.error err)) →
    ∃ kind ∈ ErrorKind.ofEvaluation, err.cause.kind? = some kind

/-- One step fails, if at all, with an error of an evaluation. -/
theorem Config.FailsProperly.step {c : Config} (h : c.FailsProperly) : c.step.FailsProperly := by
  intro err herr
  rcases Config.step_error herr with hold | ⟨-, hplain | ⟨-, name, hover⟩⟩
  · exact h err hold
  · obtain ⟨kind, hkind, heq⟩ := Cause.kind?_of_isPlain hplain
    exact ⟨kind, ErrorKind.plain_subset hkind, heq⟩
  · rw [hover]
    exact ⟨.stackOverflow, by decide, rfl⟩

namespace Interpreter

variable {i : Interpreter} {e : EnvId} {n : Nat} {ev : Evaluation}

/-- The values that are bound are sound, and all environments can read source texts
and have a limited call stack. -/
structure IsSound (i : Interpreter) : Prop where
  heap : i.heap.Obeys .sound
  session : ∀ a < i.heap.size, ∃ session, i.session? a = some session ∧
    0 < session.stack.maxHeight ∧ session.hasReader = true

/-- In a sound interpreter the call stack of every environment has a limit. -/
theorem IsSound.limit (h : i.IsSound) (he : e < i.heap.size) : 0 < (i.stackOf e).maxHeight := by
  obtain ⟨session, hsession, hlimit, -⟩ := h.session e he
  rw [stackOf_of_session? hsession]
  exact hlimit

/-- In a sound interpreter every environment can read source texts. -/
theorem IsSound.hasReader (h : i.IsSound) (he : e < i.heap.size) : i.hasReader e = true := by
  obtain ⟨session, hsession, -, hreader⟩ := h.session e he
  rw [Interpreter.hasReader, hsession]
  exact hreader

/-- An interpreter set up without an error and with a limit is sound. -/
theorem newUser_isSound {settings : List Setting} (h : empty.newUser settings = (none, i))
    (hlimit : 0 < (i.stackOf 0).maxHeight) : i.IsSound := by
  have hsetUp : Furnishes empty.newRoot i := by
    have hfurnishes := setUp_furnishes empty.newRoot empty.nextEnv (.reader true :: settings)
    rw [← newUser, h] at hfurnishes
    exact hfurnishes
  refine ⟨hsetUp.obeys (fun _ _ hg => hg) ?_, ?_⟩
  · refine Heap.Obeys.push (fun a ha => absurd ha (Nat.not_lt_zero a)) (Nat.le_refl _) ?_ ?_
    · exact fun b hb => (List.not_mem_nil hb).elim
    · exact fun p hp => (Option.some_ne_none p hp.symm).elim
  · intro a ha
    obtain rfl : a = 0 := by
      have hsize : i.heap.size = 1 := hsetUp.size
      omega
    obtain ⟨session, hnew⟩ := newRoot_session? hsetUp
    have hsession : i.session? 0 = some session := hnew
    rw [stackOf_of_session? hsession] at hlimit
    have hreader : i.hasReader 0 = true := newUser_hasReader h
    rw [Interpreter.hasReader, hsession] at hreader
    exact ⟨session, hsession, hlimit, hreader⟩

/-- A fork of an environment leaves a sound interpreter sound. -/
theorem IsSound.fork (h : i.IsSound) (he : e < i.heap.size) : (i.fork e).IsSound := by
  refine ⟨h.heap.push (Nat.zero_le _) ?_ ?_, ?_⟩
  · exact fun b hb => (List.not_mem_nil hb).elim
  · rintro p hp
    cases hp
    exact he
  · intro a ha
    have hsize : (i.fork e).heap.size = i.heap.size + 1 := Array.size_push _
    by_cases hnew : a = i.heap.size
    · obtain ⟨session, hsession, hlimit, hreader⟩ := h.session e he
      rw [hnew]
      exact ⟨_, fork_session?_self hsession, hlimit, hreader⟩
    · have hold : a < i.heap.size := by omega
      obtain ⟨session, hsession, hgood⟩ := h.session a hold
      exact ⟨session, fork_session? hold hsession, hgood⟩

/-- An evaluation keeps the interpreter sound, and ends with a sound value or a proper
error. -/
theorem IsSound.eval (h : i.IsSound) (he : e < i.heap.size) {expr : Value}
    (hexpr : expr.Sound i.heap.size) (hev : i.eval e expr n = some ev) :
    ev.interpreter.IsSound ∧ ev.outcome.Sound ev.interpreter.heap.size := by
  obtain ⟨-, hheap, hvalues⟩ := eval_holds (Nat.zero_le _) h.heap he hexpr hev
  have hsessions := run_sessions_eq (eval_goesOn e expr) hev
  refine ⟨⟨hheap, ?_⟩, ?_⟩
  · intro a ha
    -- A new environment shares the session of the one at work.
    obtain ⟨b, hb, hsame⟩ : ∃ b < i.heap.size,
        ev.interpreter.heap.sessionOf a = i.heap.sessionOf b := by
      by_cases hold : a < i.heap.size
      · exact ⟨a, hold, (run_evolves (eval_goesOn e expr) hev).session a hold⟩
      · exact ⟨e, he, run_created (eval_goesOn e expr) he hev a (Nat.le_of_not_lt hold) ha⟩
    obtain ⟨session, hsession, hgood⟩ := h.session b hb
    refine ⟨session, ?_, hgood⟩
    rw [session?, hsessions, hsame]
    exact hsession
  · obtain ⟨outcome, s, hrun, rfl⟩ := run_eq_some_iff.mp hev
    have hbegin : Config.FailsProperly ⟨.eval e expr, [], i.state e⟩ :=
      fun err herr => Control.noConfusion herr
    have hend := Config.run_invariant (fun c hc => Config.FailsProperly.step hc) hbegin hrun
    cases outcome with
    | value v => exact hvalues v (by simp [Outcome.values])
    | failure f =>
        cases f with
        | error err => exact hend err rfl
        | panic p => exact hvalues .absent (by simp [Outcome.values])

/-- The evaluation of a text leaves a sound interpreter sound, whatever comes of it. -/
theorem IsSound.evalText (h : i.IsSound) (he : e < i.heap.size) {source : Text} {r : Reply}
    (hr : i.evalText e source n = some r) : r.interpreter.IsSound := by
  rcases evalText_eq_some_iff.mp hr with ⟨failure, -, rfl⟩ | ⟨expr, ev, hread, hev, rfl⟩
  · exact h
  · exact (h.eval he ((read_eq_ok_isDatum hread).good .sound _) hev).1

/-- The interpreters that come of a user environment with a limited call stack by
forking environments and evaluating source texts, in any order. -/
inductive Reachable : Interpreter → Prop
  | newUser {settings : List Setting} {i : Interpreter} (h : empty.newUser settings = (none, i))
      (hlimit : 0 < (i.stackOf 0).maxHeight) : Reachable i
  | fork {i : Interpreter} {e : EnvId} (h : Reachable i) (he : e < i.heap.size) :
      Reachable (i.fork e)
  | evalText {i : Interpreter} {e : EnvId} {source : Text} {n : Nat} {r : Reply} (h : Reachable i)
      (he : e < i.heap.size) (hr : i.evalText e source n = some r) : Reachable r.interpreter

/-- Every interpreter a user can come to is sound. -/
theorem Reachable.isSound (h : i.Reachable) : i.IsSound := by
  induction h with
  | newUser h hlimit => exact newUser_isSound h hlimit
  | fork _ he ih => exact ih.fork he
  | evalText _ he hr ih => exact ih.evalText he hr

/-- **Soundness of evaluation.**  In an interpreter that has worked on source texts
only, whatever is bound is made of numbers, symbols, lists, closures over existing
environments and native functions of the language.  A further source text that
cannot be read changes nothing; one that can is evaluated, which comes to an end with
such a value or with an error of evaluation, shown as a text, and never panics, and all
closures that are entered on the way get as many arguments as they have formals. -/
theorem evaluation_is_sound (h : i.Reachable) :
    (∀ a, ∀ b ∈ i.heap.bindings a, b.2.Sound i.heap.size) ∧
    ∀ e < i.heap.size, ∀ source,
      (∃ failure, LexLisp.read source = .error failure ∧ ∀ n, i.evalText e source n =
        some ⟨.ok (("Error: " : Text) ++ (Error.ofSyntax failure).message), #[], i⟩) ∨
      ∃ expr n ev text, LexLisp.read source = .ok expr ∧ i.eval e expr n = some ev ∧
        ev.outcome.shown = .ok text ∧
        i.evalText e source n = some ⟨.ok text, ev.calls, ev.interpreter⟩ ∧
        ev.outcome.Sound ev.interpreter.heap.size ∧ ev.interpreter.Reachable ∧
        ∀ c, Config.Reaches ⟨.eval e expr, [], i.state e⟩ c →
          ∀ env name formals body captured args,
            c.control = .enter env name (.closure formals body captured) args →
              args.length = formals.length := by
  have hsound := h.isSound
  refine ⟨?_, ?_⟩
  · intro a b hb
    by_cases ha : a < i.heap.size
    · exact (hsound.heap a ha).1 b hb
    · rw [Heap.bindings_of_size_le (Nat.le_of_not_lt ha)] at hb
      cases hb
  · intro e he source
    have hreader := hsound.hasReader he
    cases hread : LexLisp.read source with
    | error failure =>
        refine Or.inl ⟨failure, rfl, fun n => ?_⟩
        simp only [evalText, read, hreader, hread]
        rfl
    | ok expr =>
        have hown : i.read e source = .ok expr := by
          simp only [read, hreader, hread]
          rfl
        obtain ⟨n, ev, hev⟩ := eval_returns i e expr (hsound.limit he)
        have hexpr := (read_isDatum hread).good .sound i.heap.size
        have houtcome := (hsound.eval he hexpr hev).2
        obtain ⟨text, hshown⟩ := houtcome.exists_shown
        have hreply : i.evalText e source n = some ⟨.ok text, ev.calls, ev.interpreter⟩ :=
          evalText_eq_some_iff.mpr (Or.inr ⟨expr, ev, hown, hev, by rw [hshown]⟩)
        refine Or.inr ⟨expr, n, ev, text, rfl, hev, hshown, hreply, houtcome,
          h.evalText he hreply, ?_⟩
        intro c hc env name formals body captured args hcontrol
        have hbegin : Config.Fits ⟨.eval e expr, [], i.state e⟩ := ⟨trivial, by simp⟩
        exact (hbegin.reaches hc).length_eq hcontrol

/-- A fork of a user environment evaluates a text that defines a function which takes
the first element of an empty list. -/
theorem fork_of_user_environment_is_sound :
    ∃ i ev, i = (empty.newUser [.maxHeight 5]).2.fork 0 ∧ i.Reachable ∧ 1 < i.heap.size ∧
      (∀ a, ∀ b ∈ i.heap.bindings a, b.2.Sound i.heap.size) ∧
      (∃ expr n, LexLisp.read "((fn (x) (first x)) (quote ()))" = .ok expr ∧
        i.eval 1 expr n = some ev) ∧
      ev.outcome.Sound ev.interpreter.heap.size ∧ ev.interpreter.Reachable := by
  have huser : empty.newUser [.maxHeight 5] = (none, (empty.newUser [.maxHeight 5]).2) :=
    Prod.ext (by decide +kernel) rfl
  have hreach : ((empty.newUser [.maxHeight 5]).2.fork 0).Reachable :=
    .fork (.newUser huser (by decide +kernel)) (by decide +kernel)
  have hsize : 1 < ((empty.newUser [.maxHeight 5]).2.fork 0).heap.size := by decide +kernel
  have hreads : (LexLisp.read "((fn (x) (first x)) (quote ()))").isOk := by decide +kernel
  obtain ⟨hbound, htexts⟩ := evaluation_is_sound hreach
  rcases htexts 1 hsize "((fn (x) (first x)) (quote ()))" with
    ⟨failure, hfails, -⟩ | ⟨expr, n, ev, text, hread, hev, -, -, hsound, hnext, -⟩
  · rw [hfails] at hreads
    cases hreads
  · exact ⟨_, ev, rfl, hreach, hsize, hbound, ⟨expr, n, hread, hev⟩, hsound, hnext⟩

end Interpreter

end LexLisp
