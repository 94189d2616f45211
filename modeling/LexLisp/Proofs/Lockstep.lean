import LexLisp.Proofs.StepEffect

/-!
# Two runs in lockstep

The rules of the machine see little of the state.  They look up a name, bind a
name, push or pop a frame, create an environment, and give an error a copy of the
call stack.  All else they do alike in any two states (`Machine.Alike`).

A `Lockstep` is a relation between states that these few operations keep.  From
related states the machine takes the same steps and stays in related states
(`Lockstep.related_step`), as long as every call finds both call stacks full or
neither.  What the two runs end with differs at most in the copy of the call stack
that an error keeps (`Lockstep.run_related`).

The rules also say which errors there are: `Config.step_error` lists them.
-/

namespace LexLisp

/-- The kinds of error that the rules of the machine raise, whatever the call stack
is. -/
def ErrorKind.plain : List ErrorKind :=
  [undefinedSymbol, notCallable, emptyCall, arityMismatch, typeError, emptyList, argumentCount]

namespace Cause

/-- May a rule of the machine raise this error, whatever the call stack is? -/
def isPlain : Cause → Bool
  | unreadable _ | overflow _ _ | raised _ _ => false
  | _ => true

/-- A plain cause is of one of the plain kinds. -/
theorem kind?_of_isPlain {cause : Cause} (h : cause.isPlain = true) :
    ∃ kind ∈ ErrorKind.plain, cause.kind? = some kind := by
  cases cause with
  | unreadable _ => cases h
  | overflow _ _ => cases h
  | raised _ _ => cases h
  | _ => exact ⟨_, by decide, rfl⟩

end Cause

namespace Refusal

/-- Is this a panic, or an error that a rule of the machine may raise? -/
def isPlain : Refusal → Bool
  | error cause => cause.isPlain
  | panic _ => true

/-- A value is refused with the error about it, or with a panic. -/
theorem isPlain_about (cause : Value → Cause) (found : Value)
    (h : (cause found).isPlain = true) : (about cause found).isPlain = true := by
  unfold about
  split
  · rfl
  · exact h

end Refusal

namespace Callee

/-- The error of a wrong number of arguments is a plain one. -/
theorem isPlain_of_arityError? {callee : Callee} {count : Nat} {cause : Cause}
    (h : callee.arityError? count = some cause) : cause.isPlain = true := by
  cases callee with
  | native f => cases h
  | closure formals body env =>
      simp only [arityError?] at h
      split at h
      · cases h
      · cases h
        rfl

end Callee

namespace Machine

/-- What a rule makes of two states: it goes on with the same work in either, or
raises the same error, with a copy of the call stack there. -/
inductive Alike (s s' : State) : Config → Config → Prop
  | eval (env : EnvId) (expr : Value) (k : List Pending) :
      Alike s s' ⟨.eval env expr, k, s⟩ ⟨.eval env expr, k, s'⟩
  | enter (env : EnvId) (name : Text) (callee : Callee) (args : List Value) (k : List Pending) :
      Alike s s' ⟨.enter env name callee args, k, s⟩ ⟨.enter env name callee args, k, s'⟩
  | give (v : Value) (k : List Pending) : Alike s s' (give v k s) (give v k s')
  | giveUp (p : Panic) (k : List Pending) : Alike s s' (giveUp p k s) (giveUp p k s')
  | fail (cause : Cause) (k : List Pending) (h : cause.isPlain = true) :
      Alike s s' (fail cause k s) (fail cause k s')

section Rules

variable (s s' : State) (env : EnvId) (k : List Pending)

/-- What is refused in one state is refused in the other. -/
theorem refuse_alike {r : Refusal} (h : r.isPlain = true) :
    Alike s s' (refuse r k s) (refuse r k s') := by
  cases r with
  | error cause => exact .fail cause k h
  | panic p => exact .giveUp p k

/-- A value that does not suit is refused alike in either state. -/
theorem refuse_about_alike (cause : Value → Cause) (found : Value)
    (h : (cause found).isPlain = true) :
    Alike s s' (refuse (.about cause found) k s) (refuse (.about cause found) k s') :=
  refuse_alike s s' k (Refusal.isPlain_about cause found h)

/-- Operands are evaluated alike in either state. -/
theorem evalOperands_alike (name : Text) (callee : Callee) (done todo : List Value) :
    Alike s s' (evalOperands env name callee done todo k s)
      (evalOperands env name callee done todo k s') := by
  cases todo with
  | nil => exact .enter env name callee done.reverse k
  | cons expr rest => exact .eval env expr _

/-- Evaluation begins alike where names are looked up alike. -/
theorem eval_alike (expr : Value)
    (hlookup : ∀ name, s'.heap.lookup env name = s.heap.lookup env name) :
    Alike s s' (eval env expr k s) (eval env expr k s') := by
  cases expr with
  | symbol name =>
      simp only [eval, hlookup name]
      cases s.heap.lookup env name with
      | some v => exact .give v k
      | none => exact .fail (.undefined name) k rfl
  | number x => exact .give _ k
  | list cells =>
      cases cells with
      | nil => exact .fail .emptyCall k rfl
      | cons head operands => exact .eval env head _
  | lambda formals body => exact .give _ k
  | closure formals body captured => exact .give _ k
  | native f => exact .give _ k
  | invalid code => exact .fail (.notExpression _) k rfl
  | absent => exact .giveUp .absentAccess k

/-- The head of a form is called alike in either state. -/
theorem callHead_alike (head f : Value) (operands : List Value) :
    Alike s s' (callHead env head f operands k s) (callHead env head f operands k s') := by
  simp only [callHead]
  cases Callee.ofValue? f with
  | none => exact refuse_about_alike s s' k .headNotFunction f rfl
  | some callee =>
      cases harity : callee.arityError? operands.length with
      | some cause =>
          simp only [harity]
          exact .fail cause k (Callee.isPlain_of_arityError? harity)
      | none =>
          simp only [harity]
          split
          · exact .enter env _ callee operands k
          · exact evalOperands_alike s s' env k _ callee [] operands

/-- A value is applied alike in either state. -/
theorem callValue_alike (f args : Value) :
    Alike s s' (callValue env f args k s) (callValue env f args k s') := by
  simp only [callValue]
  cases Callee.ofValue? f with
  | none => exact refuse_about_alike s s' k .notFunction f rfl
  | some callee =>
      cases args with
      | list args =>
          cases harity : callee.arityError? args.length with
          | some cause =>
              simp only [harity]
              exact .fail cause k (Callee.isPlain_of_arityError? harity)
          | none =>
              simp only [harity]
              exact .enter env _ callee args k
      | _ => exact refuse_about_alike s s' k .argumentsNotList _ rfl

/-- A primitive that evaluates nothing ends alike, if its refusals are plain. -/
theorem conclude_alike {r : Except Refusal Value}
    (hr : ∀ refusal, r = .error refusal → refusal.isPlain = true) :
    Alike s s' (conclude r k s) (conclude r k s') := by
  cases r with
  | ok v => exact .give v k
  | error refusal => exact refuse_alike s s' k (hr refusal rfl)

/-- What cannot be added up is a misuse. -/
theorem isPlain_of_sum {vs : List Value} {index : Nat} {total : Number} {refusal : Refusal}
    (h : sum index total vs = .error refusal) : refusal.isPlain = true := by
  induction vs generalizing index total with
  | nil => cases h
  | cons v rest ih =>
      cases v with
      | number x => exact ih h
      | _ =>
          cases h
          exact Refusal.isPlain_about (.misused .add (.addendIsNumber index)) _ rfl

/-- What has no first element is a misuse. -/
theorem isPlain_of_nonEmpty {p : Primitive} {v : Value} {refusal : Refusal}
    (h : nonEmpty p v = .error refusal) : refusal.isPlain = true := by
  unfold nonEmpty at h
  split at h
  · cases h
  · cases h
    rfl
  · cases h
    exact Refusal.isPlain_about (.misused p .operandIsList) v rfl

/-- A question about a value's type is refused by a panic alone. -/
theorem isPlain_of_tell {v : Value} {asked : Bool} {refusal : Refusal}
    (h : tell v asked = .error refusal) : refusal.isPlain = true := by
  unfold tell at h
  split at h
  · cases h
    rfl
  · cases h

/-- To go on from a result is to refuse nothing but what the result refuses. -/
theorem isPlain_of_map {α : Type} {r : Except Refusal α} {g : α → Value} {refusal : Refusal}
    (hr : ∀ refusal, r = .error refusal → refusal.isPlain = true)
    (h : r.map g = .error refusal) : refusal.isPlain = true := by
  cases r with
  | ok x => cases h
  | error _ =>
      cases h
      exact hr refusal rfl

/-- The rules of primitives do the same in either state. -/
theorem follow_alike (p : Primitive) (args : List Value) :
    Alike s s' (follow env p args k s) (follow env p args k s') := by
  unfold follow
  split
  · exact .give _ k
  · split
    · exact .eval env _ _
    · exact refuse_about_alike s s' k (.misused .define .nameIsSymbol) _ rfl
  · split
    · split
      · exact .give _ k
      · exact refuse_about_alike s s' k (.misused .function .formalIsSymbol) _ rfl
    · exact refuse_about_alike s s' k (.misused .function .formalsAreList) _ rfl
  · exact .eval env _ _
  · exact .eval env _ _
  · exact conclude_alike s s' k fun _ => isPlain_of_tell
  · exact conclude_alike s s' k fun _ => isPlain_of_tell
  · exact conclude_alike s s' k fun _ => isPlain_of_map fun _ => isPlain_of_sum
  · exact .give _ k
  · exact conclude_alike s s' k fun _ => isPlain_of_map fun _ => isPlain_of_nonEmpty
  · exact conclude_alike s s' k fun _ => isPlain_of_map fun _ => isPlain_of_nonEmpty
  · exact .giveUp .absentOperand k

/-- A primitive is performed alike in either state. -/
theorem perform_alike (p : Primitive) (args : List Value) :
    Alike s s' (perform env p args k s) (perform env p args k s') := by
  unfold perform
  split
  · exact follow_alike s s' env k p args
  · exact .fail (.operandCount p args.length) k rfl

/-- A value is handed on alike, unless a call is left or a name is bound. -/
theorem resume_alike (v : Value) {p : Pending} (hleave : p ≠ .leave)
    (hdefine : ∀ env name, p ≠ .define env name) :
    Alike s s' (resume v p k s) (resume v p k s') := by
  cases p with
  | operator env head operands => exact callHead_alike s s' env k head v operands
  | operand env name callee done todo =>
      exact evalOperands_alike s s' env k name callee (v :: done) todo
  | leave => exact absurd rfl hleave
  | define env name => exact absurd rfl (hdefine env name)
  | choose env yes no =>
      simp only [resume]
      split
      · exact .eval env _ k
      · exact refuse_about_alike s s' k (.misused .choose .conditionIsNumber) v rfl
  | applied env operands => exact .eval env operands _
  | arguments env f =>
      simp only [resume]
      split
      · exact callValue_alike s s' env k f _
      · exact refuse_about_alike s s' k (.misused .apply .operandsAreList) v rfl

end Rules

end Machine

namespace Outcome

/-- Two outcomes are the same but for the copy of the call stack that an error
keeps. -/
inductive SameUpTo (copy : CallStack → CallStack → Prop) : Outcome → Outcome → Prop
  | value (v : Value) : SameUpTo copy (.value v) (.value v)
  | panic (p : Panic) : SameUpTo copy (.failure (.panic p)) (.failure (.panic p))
  | error (cause : Cause) {st st' : CallStack} (h : copy st st') :
      SameUpTo copy (.failure (.error ⟨cause, some st⟩)) (.failure (.error ⟨cause, some st'⟩))

end Outcome

namespace Control

/-- The work at hand is the same but for the copy of the call stack that an error
keeps. -/
inductive SameUpTo (copy : CallStack → CallStack → Prop) : Control → Control → Prop
  | eval (env : EnvId) (expr : Value) : SameUpTo copy (.eval env expr) (.eval env expr)
  | enter (env : EnvId) (name : Text) (callee : Callee) (args : List Value) :
      SameUpTo copy (.enter env name callee args) (.enter env name callee args)
  | done {outcome outcome' : Outcome} (h : outcome.SameUpTo copy outcome') :
      SameUpTo copy (.done outcome) (.done outcome')

end Control

/-- A relation between states that the machine keeps, as long as it works where
`home` allows it in the first heap, and one between the call stacks of related
states. -/
structure Lockstep where
  home : Heap → EnvId → Prop
  rel : State → State → Prop
  copy : CallStack → CallStack → Prop
  stack : ∀ {s s'}, rel s s' → copy s.stack s'.stack
  height : ∀ {s s'}, rel s s' → (s'.stack.height = 0 ↔ s.stack.height = 0)
  size : ∀ {s s'}, rel s s' → s'.heap.size = s.heap.size
  lookup : ∀ {s s' env}, rel s s' → home s.heap env →
    ∀ name, s'.heap.lookup env name = s.heap.lookup env name
  define : ∀ {s s' env}, rel s s' → home s.heap env → ∀ name v,
    rel { s with heap := s.heap.define env name v } { s' with heap := s'.heap.define env name v }
  create : ∀ {s s' env}, rel s s' → home s.heap env → ∀ captured bindings,
    rel { s with heap := s.heap.push ⟨captured, s.heap.sessionOf env, bindings⟩ }
      { s' with heap := s'.heap.push ⟨captured, s'.heap.sessionOf env, bindings⟩ }
  pushFrame : ∀ {s s'}, rel s s' → ∀ env frame,
    rel (Machine.pushFrame env frame s) (Machine.pushFrame env frame s')
  pop : ∀ {s s'}, rel s s' →
    rel { s with stack := s.stack.pop } { s' with stack := s'.stack.pop }

namespace Lockstep

variable (L : Lockstep)

/-- The same work in related states. -/
structure Related (c c' : Config) : Prop where
  control : c.control.SameUpTo L.copy c'.control
  pending : c'.pending = c.pending
  state : L.rel c.state c'.state

variable {L} {s s' : State} {env : EnvId} {k : List Pending}

/-- Rules that do the same in related states keep them related. -/
theorem Related.of_alike {d d' : Config} (h : Machine.Alike s s' d d') (hs : L.rel s s') :
    L.Related d d' := by
  cases h with
  | eval env expr k => exact ⟨.eval env expr, rfl, hs⟩
  | enter env name callee args k => exact ⟨.enter env name callee args, rfl, hs⟩
  | give v k => exact ⟨.done (.value v), rfl, hs⟩
  | giveUp p k => exact ⟨.done (.panic p), rfl, hs⟩
  | fail cause k _ => exact ⟨.done (.error cause (L.stack hs)), rfl, hs⟩

/-- The call stack of neither state is full, or those of both are, at the same
height. -/
def SameRoom (s s' : State) : Prop :=
  s'.stack.isFull = s.stack.isFull ∧
    (s.stack.isFull = true → s'.stack.maxHeight = s.stack.maxHeight)

/-- A function that has been entered runs alike. -/
theorem related_runCallee (hs : L.rel s s') (henv : L.home s.heap env) (callee : Callee)
    (args : List Value) :
    L.Related (Machine.runCallee env callee args k s) (Machine.runCallee env callee args k s') := by
  cases callee with
  | native f => exact .of_alike (Machine.perform_alike s s' env k f.primitive args) hs
  | closure formals body captured =>
      have hcreated := L.create hs henv captured (Machine.bindFormals formals args)
      simp only [Machine.runCallee, L.size hs]
      split
      · exact ⟨.done (.panic _), rfl, hcreated⟩
      · exact ⟨.eval _ body, rfl, hcreated⟩

/-- To enter a function keeps the states related, if both have room for it or neither has.
-/
theorem related_enter (hs : L.rel s s') (henv : L.home s.heap env) (hroom : SameRoom s s')
    (name : Text) (callee : Callee) (args : List Value) :
    L.Related (Machine.enter env name callee args k s)
      (Machine.enter env name callee args k s') := by
  simp only [Machine.enter, hroom.1]
  split
  · rename_i hfull
    rw [hroom.2 hfull]
    exact ⟨.done (.error _ (L.stack hs)), rfl, hs⟩
  · exact related_runCallee (L.pushFrame hs env _) henv callee args

theorem related_leave (hs : L.rel s s') {outcome outcome' : Outcome}
    (h : outcome.SameUpTo L.copy outcome') :
    L.Related (Machine.leave outcome k s) (Machine.leave outcome' k s') := by
  simp only [Machine.leave, L.height hs]
  split
  · exact ⟨.done (.panic _), rfl, hs⟩
  · exact ⟨.done h, rfl, L.pop hs⟩

/-- To go on with a value keeps the states related. -/
theorem related_resume (hs : L.rel s s') (v : Value) (p : Pending)
    (henv : ∀ env, p.env? = some env → L.home s.heap env) :
    L.Related (Machine.resume v p k s) (Machine.resume v p k s') := by
  cases p with
  | leave => exact related_leave hs (.value v)
  | define env name =>
      simp only [Machine.resume]
      split
      · exact ⟨.done (.panic _), rfl, hs⟩
      · exact ⟨.done (.value _), rfl, L.define hs (henv env rfl) name v⟩
  | _ => exact .of_alike (Machine.resume_alike s s' k v (by simp) (by simp)) hs

/-- Outcomes that are the same are handed on alike. -/
theorem related_hand (hs : L.rel s s') {outcome outcome' : Outcome}
    (h : outcome.SameUpTo L.copy outcome') (p : Pending)
    (henv : ∀ env, p.env? = some env → L.home s.heap env) :
    L.Related (Machine.hand outcome p k s) (Machine.hand outcome' p k s') := by
  cases h with
  | value v => exact related_resume hs v p henv
  | panic f =>
      cases p with
      | leave => exact related_leave hs (.panic f)
      | _ => exact ⟨.done (.panic f), rfl, hs⟩
  | error cause hcopy =>
      cases p with
      | leave => exact related_leave hs (.error cause hcopy)
      | _ => exact ⟨.done (.error cause hcopy), rfl, hs⟩

/-- **Steps in lockstep.**  From related states the machine takes the same step
into related states, unless a call finds only one of the call stacks full. -/
theorem related_step {c c' : Config} (h : L.Related c c')
    (henvs : ∀ a ∈ c.envs, L.home c.state.heap a)
    (hroom : ∀ env name callee args, c.control = .enter env name callee args →
      SameRoom c.state c'.state) :
    L.Related c.step c'.step := by
  obtain ⟨control, pending, s⟩ := c
  obtain ⟨control', pending', s'⟩ := c'
  obtain ⟨hcontrol, hpending, hs⟩ := h
  dsimp only at hcontrol hpending hs hroom
  subst hpending
  cases hcontrol with
  | eval env expr =>
      have henv := henvs env (by simp [Control.env?])
      exact .of_alike (Machine.eval_alike s s' env pending' expr (L.lookup hs henv)) hs
  | enter env name callee args =>
      have henv := henvs env (by simp [Control.env?])
      exact related_enter hs henv (hroom env name callee args rfl) name callee args
  | done hout =>
      cases pending' with
      | nil => exact ⟨.done hout, rfl, hs⟩
      | cons p k =>
          refine related_hand hs hout p ?_
          intro env henv
          exact henvs env (by simp [henv])

/-- **Runs in lockstep.**  Where related call stacks have the same room, related
configurations end after as many steps, with the same outcome and in related
states, or both go on.  Work is done where `home` allows it by an invariant of the
first run. -/
theorem run_related {I : Config → Prop} (hstep : ∀ c, I c → I c.step)
    (hhome : ∀ c, I c → ∀ a ∈ c.envs, L.home c.state.heap a)
    (hroom : ∀ s s', L.rel s s' → SameRoom s s')
    (n : Nat) {c c' : Config} (hc : I c) (h : L.Related c c') :
    Option.Rel (fun r r' => r.1.SameUpTo L.copy r'.1 ∧ L.rel r.2 r'.2)
      (Config.run n c) (Config.run n c') := by
  induction n generalizing c c' with
  | zero =>
      obtain ⟨control, pending, s⟩ := c
      obtain ⟨control', pending', s'⟩ := c'
      obtain ⟨hcontrol, hpending, hs⟩ := h
      dsimp only at hcontrol hpending hs
      subst hpending
      cases hcontrol with
      | eval env expr => exact .none
      | enter env name callee args => exact .none
      | done hout =>
          cases pending' with
          | nil => exact .some ⟨hout, hs⟩
          | cons p k => exact .none
  | succ n ih =>
      rw [Config.run_succ, Config.run_succ]
      exact ih (hstep c hc) (related_step h (hhome c hc) fun _ _ _ _ _ => hroom _ _ h.state)

end Lockstep

namespace Machine

variable {s s' : State} {d d' : Config} {e : Error} {env : EnvId} {k : List Pending}

/-- The error that a rule raises is a plain one, with a copy of the call stack. -/
theorem Alike.error (h : Alike s s' d d') (he : d.control = .done (.failure (.error e))) :
    e.stack = some d.state.stack ∧ e.cause.isPlain = true := by
  cases h with
  | fail cause k hplain =>
      cases he
      exact ⟨rfl, hplain⟩
  | _ => cases he

/-- A call fails by itself only if the call stack is full. -/
theorem enter_error {name : Text} {callee : Callee} {args : List Value}
    (h : (enter env name callee args k s).control = .done (.failure (.error e))) :
    e.stack = some (enter env name callee args k s).state.stack ∧
      (e.cause.isPlain = true ∨
        s.stack.isFull = true ∧ e.cause = .overflow s.stack.maxHeight name) := by
  by_cases hfull : s.stack.isFull = true
  · rw [enter, if_pos hfull] at h ⊢
    cases h
    exact ⟨rfl, Or.inr ⟨hfull, rfl⟩⟩
  · rw [enter, if_neg hfull] at h ⊢
    cases callee with
    | native f =>
        have herror := (perform_alike _ s env (.leave :: k) f.primitive args).error h
        exact ⟨herror.1, Or.inl herror.2⟩
    | closure formals body captured =>
        simp only [runCallee] at h
        split at h
        · cases h
        · cases h

/-- To leave a call is not to fail: the error was there before. -/
theorem leave_error {outcome : Outcome}
    (h : (leave outcome k s).control = .done (.failure (.error e))) :
    outcome = .failure (.error e) := by
  unfold leave at h
  split at h
  · cases h
  · cases h
    rfl

/-- An error raised on going on with a value is plain and has a copy of the call stack. -/
theorem resume_error {v : Value} {p : Pending}
    (h : (resume v p k s).control = .done (.failure (.error e))) :
    e.stack = some (resume v p k s).state.stack ∧ e.cause.isPlain = true := by
  cases p with
  | leave => cases leave_error h
  | define env name =>
      simp only [resume] at h
      split at h
      · cases h
      · cases h
  | _ => exact (resume_alike s s k v (by simp) (by simp)).error h

end Machine

/-- **Which errors there are.**  An error that a step ends with was at hand before,
or it is raised now, with a copy of the call stack as it is: a plain error, or the
overflow of a call stack that is full. -/
theorem Config.step_error {c : Config} {e : Error}
    (h : c.step.control = .done (.failure (.error e))) :
    c.control = .done (.failure (.error e)) ∨
    e.stack = some c.step.state.stack ∧
      (e.cause.isPlain = true ∨
        c.state.stack.isFull = true ∧
          ∃ name, e.cause = .overflow c.state.stack.maxHeight name) := by
  obtain ⟨control, k, s⟩ := c
  cases control with
  | eval env expr =>
      have herror := (Machine.eval_alike s s env k expr fun _ => rfl).error h
      exact Or.inr ⟨herror.1, Or.inl herror.2⟩
  | enter env name callee args =>
      have herror := Machine.enter_error h
      exact Or.inr ⟨herror.1, herror.2.imp_right fun hfull => ⟨hfull.1, name, hfull.2⟩⟩
  | done outcome =>
      cases k with
      | nil => exact Or.inl h
      | cons p k =>
          cases outcome with
          | value v =>
              have herror := Machine.resume_error h
              exact Or.inr ⟨herror.1, Or.inl herror.2⟩
          | failure f =>
              left
              cases p with
              | leave => exact congrArg Control.done (Machine.leave_error h)
              | _ => exact h

end LexLisp
