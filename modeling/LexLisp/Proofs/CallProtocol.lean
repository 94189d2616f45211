import LexLisp.Proofs.Termination
import Mathlib.Data.List.TakeWhile

/-!
# The call protocol

What an evaluation gives is defined here by rules, without a machine:
`Protocol.Evaluates env expr s o s'` says that the expression, evaluated in the
environment `env` from the state `s` on, has the outcome `o` and leaves the state `s'`.
The rules follow the stages of a call, each of which may fail:

* evaluate the head, whose value must be callable;
* a closure must have as many formals as there are operands;
* evaluate the operands from left to right (`EvaluatesAll`), unless the head is a special
  operator;
* push a frame, if there is room for it (`Invokes`);
* evaluate the body of the closure in a fresh environment, or follow the rule of the
  primitive (`Follows`), which counts its operands first.

The rules say what becomes of the heap, of the call stack and of the log in so many words
(`called`, `opened`, `returned`), and take nothing from the machine.  Whatever the rules give, the machine gets to, with any work pending
(`Protocol.Evaluates.reaches`).
-/

namespace LexLisp

namespace Primitive

/-- How many operands a primitive wants.  Some take any number of them. -/
def count? : Primitive → Option Nat
  | quote | isNumber | isSymbol | first | rest => some 1
  | define | function | apply => some 2
  | choose => some 3
  | add | list => none

/-- The primitive takes as many operands. -/
def Takes (p : Primitive) (n : Nat) : Prop := ∀ k ∈ p.count?, n = k

/-- The formals of a primitive tell how many operands it wants. -/
theorem count?_eq (p : Primitive) :
    p.count? = if p.isVariadic then none else some p.formals.length := by
  cases p <;> decide

/-- The check of a primitive's arguments counts as the protocol says. -/
theorem accepts_iff {p : Primitive} {n : Nat} : p.accepts n = true ↔ p.Takes n := by
  rw [Takes, count?_eq, accepts]
  cases p.isVariadic with
  | true => simp
  | false => simp

end Primitive

namespace Callee

/-- The callee takes as many arguments: a closure as many as it has formals.  Native
functions count their operands themselves. -/
def Takes (callee : Callee) (n : Nat) : Prop :=
  match callee with
  | closure formals _ _ => n = formals.length
  | native _ => True

end Callee

namespace Protocol

/-- An error keeps a copy of the call stack of the state in which it is raised. -/
def raise (cause : Cause) (s : State) : Outcome :=
  .failure (.error ⟨cause, some s.stack⟩)

/-- A value of the wrong type is an error about it, but an absent value has no type to look
at. -/
def unsuited (cause : Value → Cause) (found : Value) (s : State) : Failure :=
  match found with
  | .absent => .panic .absentAccess
  | found => .error ⟨cause found, some s.stack⟩

/-- The state in which a function has been called: its frame is on the call stack, and the
call is in the log. -/
def called (env : EnvId) (frame : Frame) (s : State) : State :=
  ⟨s.heap, s.stack.push frame, s.calls.push ⟨frame, env, s.stack.height + 1⟩⟩

/-- The state in which the body of a closure is evaluated: there is a new environment, a child
of the captured one in the session of the caller. -/
def opened (env : EnvId) (name : Text) (captured : Option EnvId) (bindings : Bindings) (s : State) :
    State :=
  { called env ⟨name, true⟩ s with
    heap := s.heap.push ⟨captured, s.heap.sessionOf env, bindings⟩ }

/-- The state in which a call has returned: its frame is gone. -/
def returned (s : State) : State :=
  { s with stack := s.stack.pop }

/-- The answer of a primitive that evaluates nothing. -/
inductive Answers (env : EnvId) : Primitive → List Value → Value → Prop
  | quote (expr : Value) : Answers env .quote [expr] expr
  | function (names : List Text) (body : Value) :
      Answers env .function [.list (names.map .symbol), body] (.closure names body (some env))
  | number (x : Number) : Answers env .isNumber [.number x] (.ofBool true)
  | notNumber {v : Value} (h : ∀ x, v ≠ .number x) (hv : v ≠ .absent) :
      Answers env .isNumber [v] (.ofBool false)
  | symbol (name : Text) : Answers env .isSymbol [.symbol name] (.ofBool true)
  | notSymbol {v : Value} (h : ∀ name, v ≠ .symbol name) (hv : v ≠ .absent) :
      Answers env .isSymbol [v] (.ofBool false)
  | add (xs : List Number) : Answers env .add (xs.map .number) (.number (xs.foldl .add .zero))
  | list (args : List Value) : Answers env .list args (.list args)
  | first (v : Value) (others : List Value) : Answers env .first [.list (v :: others)] v
  | rest (v : Value) (others : List Value) :
      Answers env .rest [.list (v :: others)] (.list others)

/-- A primitive is misused: this operand is not as expected. -/
inductive Misuses : Primitive → List Value → Expectation → Value → Prop
  | name {v : Value} (expr : Value) (h : ∀ name, v ≠ .symbol name) :
      Misuses .define [v, expr] .nameIsSymbol v
  | formal (names : List Text) {v : Value} (others : List Value) (body : Value)
      (h : ∀ name, v ≠ .symbol name) :
      Misuses .function [.list (names.map .symbol ++ v :: others), body] .formalIsSymbol v
  | formals {v : Value} (body : Value) (h : ∀ cells, v ≠ .list cells) :
      Misuses .function [v, body] .formalsAreList v
  | addend (xs : List Number) {v : Value} (others : List Value) (h : ∀ x, v ≠ .number x) :
      Misuses .add (xs.map .number ++ v :: others) (.addendIsNumber xs.length) v
  | list {p : Primitive} {v : Value} (hp : p = .first ∨ p = .rest) (h : ∀ cells, v ≠ .list cells) :
      Misuses p [v] .operandIsList v

mutual

/-- To evaluate `expr` in `env` from the state `s` on gives the outcome `o` in the state
`s'`. -/
inductive Evaluates : EnvId → Value → State → Outcome → State → Prop
  | number (env : EnvId) (x : Number) (s : State) :
      Evaluates env (.number x) s (.value (.number x)) s
  | closure (env : EnvId) (formals : List Text) (body : Value) (captured : Option EnvId) (s : State) :
      Evaluates env (.closure formals body captured) s (.value (.closure formals body captured)) s
  | native (env : EnvId) (g : Native) (s : State) :
      Evaluates env (.native g) s (.value (.native g)) s
  | lambda (env : EnvId) (formals : List Text) (body : Value) (s : State) :
      Evaluates env (.lambda formals body) s (.value (.closure formals body (some env))) s
  | bound {env : EnvId} {name : Text} {v : Value} {s : State} (h : s.heap.lookup env name = some v) :
      Evaluates env (.symbol name) s (.value v) s
  | unbound {env : EnvId} {name : Text} {s : State} (h : s.heap.lookup env name = none) :
      Evaluates env (.symbol name) s (raise (.undefined name) s) s
  | invalid (env : EnvId) (code : InvalidCode) (s : State) :
      Evaluates env (.invalid code) s (raise (.notExpression (.invalid code)) s) s
  | absent (env : EnvId) (s : State) :
      Evaluates env .absent s (.failure (.panic .absentAccess)) s
  | emptyCall (env : EnvId) (s : State) : Evaluates env (.list []) s (raise .emptyCall s) s
  | headFails {env : EnvId} {head : Value} {operands : List Value} {s s₁ : State} {f : Failure}
      (hhead : Evaluates env head s (.failure f) s₁) :
      Evaluates env (.list (head :: operands)) s (.failure f) s₁
  | notCallable {env : EnvId} {head f : Value} {operands : List Value} {s s₁ : State}
      (hhead : Evaluates env head s (.value f) s₁) (hf : f.isCallable = false) :
      Evaluates env (.list (head :: operands)) s (.failure (unsuited .headNotFunction f s₁)) s₁
  | arityMismatch {env : EnvId} {head : Value} {formals : List Text} {body : Value}
      {captured : Option EnvId} {operands : List Value} {s s₁ : State}
      (hhead : Evaluates env head s (.value (.closure formals body captured)) s₁)
      (hn : operands.length ≠ formals.length) :
      Evaluates env (.list (head :: operands)) s
        (raise (.arity formals.length operands.length) s₁) s₁
  | special {env : EnvId} {head : Value} {g : Native} {operands : List Value} {s s₁ s₂ : State}
      {o : Outcome} (hhead : Evaluates env head s (.value (.native g)) s₁) (hg : g.mode = .special)
      (hcall : Invokes env ((Callee.native g).callName head) (.native g) operands s₁ o s₂) :
      Evaluates env (.list (head :: operands)) s o s₂
  | operandFails {env : EnvId} {head : Value} {callee : Callee} {operands : List Value}
      {s s₁ s₂ : State} {f : Failure} (hhead : Evaluates env head s (.value callee.toValue) s₁)
      (hn : callee.Takes operands.length) (hvalues : callee.isSpecial = false)
      (hoperands : EvaluatesAll env operands s₁ (.error f) s₂) :
      Evaluates env (.list (head :: operands)) s (.failure f) s₂
  | call {env : EnvId} {head : Value} {callee : Callee} {operands args : List Value}
      {s s₁ s₂ s₃ : State} {o : Outcome} (hhead : Evaluates env head s (.value callee.toValue) s₁)
      (hn : callee.Takes operands.length) (hvalues : callee.isSpecial = false)
      (hoperands : EvaluatesAll env operands s₁ (.ok args) s₂)
      (hcall : Invokes env (callee.callName head) callee args s₂ o s₃) :
      Evaluates env (.list (head :: operands)) s o s₃

/-- Evaluate expressions from left to right, up to the first failure. -/
inductive EvaluatesAll : EnvId → List Value → State → Except Failure (List Value) → State → Prop
  | nil (env : EnvId) (s : State) : EvaluatesAll env [] s (.ok []) s
  | fails {env : EnvId} {expr : Value} {others : List Value} {s s₁ : State} {f : Failure}
      (h : Evaluates env expr s (.failure f) s₁) : EvaluatesAll env (expr :: others) s (.error f) s₁
  | failsLater {env : EnvId} {expr v : Value} {others : List Value} {s s₁ s₂ : State} {f : Failure}
      (h : Evaluates env expr s (.value v) s₁) (hs : EvaluatesAll env others s₁ (.error f) s₂) :
      EvaluatesAll env (expr :: others) s (.error f) s₂
  | cons {env : EnvId} {expr v : Value} {others vs : List Value} {s s₁ s₂ : State}
      (h : Evaluates env expr s (.value v) s₁) (hs : EvaluatesAll env others s₁ (.ok vs) s₂) :
      EvaluatesAll env (expr :: others) s (.ok (v :: vs)) s₂

/-- Invoke a function under a name. -/
inductive Invokes : EnvId → Text → Callee → List Value → State → Outcome → State → Prop
  | overflow {env : EnvId} {name : Text} {callee : Callee} {args : List Value} {s : State}
      (hfull : s.stack.isFull = true) :
      Invokes env name callee args s (raise (.overflow s.stack.maxHeight name) s) s
  | closure {env : EnvId} {name : Text} {formals : List Text} {body : Value}
      {captured : Option EnvId} {args : List Value} {s s₁ : State} {o : Outcome}
      (hroom : s.stack.isFull = false) (hargs : args.any Value.isAbsent = false)
      (hbody : Evaluates s.heap.size body
        (opened env name captured (.ofPairs (formals.zip args)) s) o s₁) :
      Invokes env name (.closure formals body captured) args s o (returned s₁)
  | absentArgument {env : EnvId} {name : Text} {formals : List Text} {body : Value}
      {captured : Option EnvId} {given others : List Value} {s : State}
      (hroom : s.stack.isFull = false) (hgiven : given.any Value.isAbsent = false) :
      Invokes env name (.closure formals body captured) (given ++ .absent :: others) s
        (.failure (.panic .absentValue))
        (returned (opened env name captured (.ofPairs (formals.zip given)) s))
  | operandCount {env : EnvId} {name : Text} {g : Native} {args : List Value} {s : State}
      (hroom : s.stack.isFull = false) (hn : ¬ g.primitive.Takes args.length) :
      Invokes env name (.native g) args s
        (raise (.operandCount g.primitive args.length) (called env ⟨name, false⟩ s))
        (returned (called env ⟨name, false⟩ s))
  | native {env : EnvId} {name : Text} {g : Native} {args : List Value} {s s₁ : State} {o : Outcome}
      (hroom : s.stack.isFull = false) (hn : g.primitive.Takes args.length)
      (hrule : Follows env g.primitive args (called env ⟨name, false⟩ s) o s₁) :
      Invokes env name (.native g) args s o (returned s₁)

/-- The rule of a primitive. -/
inductive Follows : EnvId → Primitive → List Value → State → Outcome → State → Prop
  | answer {env : EnvId} {p : Primitive} {args : List Value} {v : Value} {s : State}
      (h : Answers env p args v) : Follows env p args s (.value v) s
  | misused {env : EnvId} {p : Primitive} {args : List Value} {expected : Expectation} {v : Value}
      {s : State} (h : Misuses p args expected v) :
      Follows env p args s (.failure (unsuited (.misused p expected) v s)) s
  | emptyList {env : EnvId} {p : Primitive} {s : State} (hp : p = .first ∨ p = .rest) :
      Follows env p [.list []] s (raise (.emptyOperand p) s) s
  | absentAsked {env : EnvId} {p : Primitive} {s : State} (hp : p = .isNumber ∨ p = .isSymbol) :
      Follows env p [.absent] s (.failure (.panic .absentAccess)) s
  | define {env : EnvId} {name : Text} {expr v : Value} {s s₁ : State}
      (h : Evaluates env expr s (.value v) s₁) (hv : v.isAbsent = false) :
      Follows env .define [.symbol name, expr] s (.value (.symbol name))
        { s₁ with heap := s₁.heap.define env name v }
  | defineAbsent {env : EnvId} {name : Text} {expr v : Value} {s s₁ : State}
      (h : Evaluates env expr s (.value v) s₁) (hv : v.isAbsent = true) :
      Follows env .define [.symbol name, expr] s (.failure (.panic .absentValue)) s₁
  | defineFails {env : EnvId} {name : Text} {expr : Value} {s s₁ : State} {f : Failure}
      (h : Evaluates env expr s (.failure f) s₁) :
      Follows env .define [.symbol name, expr] s (.failure f) s₁
  | choose {env : EnvId} {condition yes no : Value} {x : Number} {s s₁ s₂ : State} {o : Outcome}
      (h : Evaluates env condition s (.value (.number x)) s₁)
      (hbranch : Evaluates env (if x.isZero then no else yes) s₁ o s₂) :
      Follows env .choose [condition, yes, no] s o s₂
  | notCondition {env : EnvId} {condition yes no v : Value} {s s₁ : State}
      (h : Evaluates env condition s (.value v) s₁) (hv : ∀ x, v ≠ .number x) :
      Follows env .choose [condition, yes, no] s
        (.failure (unsuited (.misused .choose .conditionIsNumber) v s₁)) s₁
  | conditionFails {env : EnvId} {condition yes no : Value} {s s₁ : State} {f : Failure}
      (h : Evaluates env condition s (.failure f) s₁) :
      Follows env .choose [condition, yes, no] s (.failure f) s₁
  | apply {env : EnvId} {head operands f : Value} {args : List Value} {s s₁ s₂ s₃ : State}
      {o : Outcome} (hhead : Evaluates env head s (.value f) s₁)
      (hoperands : Evaluates env operands s₁ (.value (.list args)) s₂)
      (hcall : Calls env f args s₂ o s₃) : Follows env .apply [head, operands] s o s₃
  | notArguments {env : EnvId} {head operands f v : Value} {s s₁ s₂ : State}
      (hhead : Evaluates env head s (.value f) s₁)
      (hoperands : Evaluates env operands s₁ (.value v) s₂) (hv : ∀ cells, v ≠ .list cells) :
      Follows env .apply [head, operands] s
        (.failure (unsuited (.misused .apply .operandsAreList) v s₂)) s₂
  | argumentsFail {env : EnvId} {head operands f : Value} {s s₁ s₂ : State} {failure : Failure}
      (hhead : Evaluates env head s (.value f) s₁)
      (hoperands : Evaluates env operands s₁ (.failure failure) s₂) :
      Follows env .apply [head, operands] s (.failure failure) s₂
  | functionFails {env : EnvId} {head operands : Value} {s s₁ : State} {f : Failure}
      (hhead : Evaluates env head s (.failure f) s₁) :
      Follows env .apply [head, operands] s (.failure f) s₁

/-- Call a value with arguments that are handed over as they are. -/
inductive Calls : EnvId → Value → List Value → State → Outcome → State → Prop
  | notCallable {env : EnvId} {f : Value} {args : List Value} {s : State}
      (hf : f.isCallable = false) : Calls env f args s (.failure (unsuited .notFunction f s)) s
  | arityMismatch {env : EnvId} {formals : List Text} {body : Value} {captured : Option EnvId}
      {args : List Value} {s : State} (hn : args.length ≠ formals.length) :
      Calls env (.closure formals body captured) args s
        (raise (.arity formals.length args.length) s) s
  | invoke {env : EnvId} {callee : Callee} {args : List Value} {s s₁ : State} {o : Outcome}
      (hn : callee.Takes args.length) (hcall : Invokes env callee.ownName callee args s o s₁) :
      Calls env callee.toValue args s o s₁

end

end Protocol

namespace Callee

/-- A callee is what the value it is called as stands for. -/
theorem ofValue?_toValue (callee : Callee) : ofValue? callee.toValue = some callee := by
  cases callee <;> rfl

/-- No arity error is raised for as many arguments as the callee takes. -/
theorem arityError?_eq_none {callee : Callee} {n : Nat} (h : callee.Takes n) :
    callee.arityError? n = none := by
  cases callee with
  | closure formals body env => exact if_pos h
  | native g => rfl

/-- What is not callable stands for no callee. -/
theorem ofValue?_eq_none {v : Value} (h : v.isCallable = false) : ofValue? v = none := by
  cases v with
  | closure formals body env => cases h
  | native g => cases h
  | _ => rfl

end Callee

namespace Machine

/-- Symbols in front of the formals are named in front. -/
theorem formalNames_append (names : List Text) (others : List Value) :
    formalNames (names.map .symbol ++ others) = (formalNames others).map (names ++ ·) := by
  induction names with
  | nil => cases h : formalNames others <;> simp [h, Except.map]
  | cons name names ih =>
      rw [List.map_cons, List.cons_append, formalNames, ih]
      cases formalNames others <;> rfl

theorem formalNames_symbols (names : List Text) : formalNames (names.map .symbol) = .ok names := by
  have h := formalNames_append names []
  rw [List.append_nil] at h
  rw [h, formalNames]
  exact congrArg Except.ok (List.append_nil names)

/-- The first of the formals that is not a symbol is the one reported. -/
theorem formalNames_notSymbol {v : Value} (h : ∀ name, v ≠ .symbol name) (others : List Value) :
    formalNames (v :: others) = .error v := by
  cases v with
  | symbol name => exact absurd rfl (h name)
  | _ => rfl

/-- Numbers in front are added up before the rest is looked at. -/
theorem sum_append (index : Nat) (total : Number) (xs : List Number) (others : List Value) :
    sum index total (xs.map .number ++ others) =
      sum (index + xs.length) (xs.foldl .add total) others := by
  induction xs generalizing index total with
  | nil => rfl
  | cons x xs ih =>
      rw [List.map_cons, List.cons_append, sum, ih, List.length_cons, List.foldl_cons]
      congr 1
      omega

/-- The first addend that is not a number is refused with its place. -/
theorem sum_notNumber {v : Value} (h : ∀ x, v ≠ .number x) (index : Nat) (total : Number)
    (others : List Value) :
    sum index total (v :: others) = .error (.about (.misused .add (.addendIsNumber index)) v) := by
  cases v with
  | number x => exact absurd rfl (h x)
  | _ => rfl

/-- What is not a list has no first element. -/
theorem nonEmpty_notList {p : Primitive} {v : Value} (h : ∀ cells, v ≠ .list cells) :
    nonEmpty p v = .error (.about (.misused p .operandIsList) v) := by
  cases v with
  | list cells => exact absurd rfl (h cells)
  | _ => rfl

open Protocol

/-- What the machine refuses is unsuited. -/
theorem refuse_about (cause : Value → Cause) (found : Value) (k : List Pending) (s : State) :
    refuse (.about cause found) k s = ⟨.done (.failure (unsuited cause found s)), k, s⟩ := by
  cases found <;> rfl

/-- The machine gives the answer of a primitive. -/
theorem follow_answers {env : EnvId} {p : Primitive} {args : List Value} {v : Value}
    (h : Answers env p args v) (k : List Pending) (s : State) :
    follow env p args k s = give v k s := by
  cases h with
  | quote expr => rfl
  | function names body => simp only [follow, formalNames_symbols]
  | number x => rfl
  | @notNumber v h hv =>
      cases v with
      | number x => exact absurd rfl (h x)
      | absent => exact absurd rfl hv
      | _ => rfl
  | symbol name => rfl
  | @notSymbol v h hv =>
      cases v with
      | symbol name => exact absurd rfl (h name)
      | absent => exact absurd rfl hv
      | _ => rfl
  | add xs =>
      have hsum := sum_append 0 .zero xs []
      rw [List.append_nil] at hsum
      simp only [follow, hsum]
      rfl
  | list args => rfl
  | first v others => rfl
  | rest v others => rfl

/-- The machine refuses the operand by which a primitive is misused. -/
theorem follow_misuses {env : EnvId} {p : Primitive} {args : List Value} {expected : Expectation}
    {v : Value} (h : Misuses p args expected v) (k : List Pending) (s : State) :
    follow env p args k s = ⟨.done (.failure (unsuited (.misused p expected) v s)), k, s⟩ := by
  rw [← refuse_about]
  cases h with
  | name expr h =>
      cases v with
      | symbol name => exact absurd rfl (h name)
      | _ => rfl
  | formal names others body h =>
      simp only [follow, formalNames_append, formalNames_notSymbol h]
      rfl
  | formals body h =>
      cases v with
      | list cells => exact absurd rfl (h cells)
      | _ => rfl
  | addend xs others h =>
      simp only [follow, sum_append, sum_notNumber h, Nat.zero_add]
      rfl
  | list hp h =>
      rcases hp with hp | hp
      · subst hp
        simp only [follow, nonEmpty_notList h]
        rfl
      · subst hp
        simp only [follow, nonEmpty_notList h]
        rfl

/-- A call is left with whatever outcome it has. -/
theorem hand_leave (o : Outcome) (k : List Pending) {s : State} (h : s.stack.height ≠ 0) :
    hand o .leave k s = ⟨.done o, k, returned s⟩ := by
  cases o with
  | value v => exact if_neg h
  | failure f => exact if_neg h

end Machine

theorem CallStack.height_ne_zero {st base : CallStack} {f : Frame} (h : st = base.push f) :
    st.height ≠ 0 := by
  rw [h, height_push]
  omega

namespace Config

/-- A value that is reached goes to the work that awaits it. -/
theorem Reaches.resume {c d : Config} {v : Value} {p : Pending} {k : List Pending} {s : State}
    (h : Reaches c ⟨.done (.value v), p :: k, s⟩) (hd : Reaches (Machine.resume v p k s) d) :
    Reaches c d :=
  h.trans (.step hd)

/-- A failure passes by the work that awaits a value. -/
theorem Reaches.pass {c : Config} {f : Failure} {p : Pending} {k : List Pending} {s : State}
    (h : Reaches c ⟨.done (.failure f), p :: k, s⟩) (hp : p.isLeave = false) :
    Reaches c ⟨.done (.failure f), k, s⟩ := by
  refine h.trans (.step ?_)
  cases p with
  | leave => cases hp
  | _ => exact .refl _

/-- What goes on from a state without pending work, and settles, ends with the call stack it
began with. -/
theorem stack_eq_of_reaches {e : EnvId} {s s' : State} {c : Config} {o : Outcome}
    (hc : Machine.GoesOn e [] s c) (h : Reaches c ⟨.done o, [], s'⟩) : s'.stack = s.stack := by
  have hbalanced : ∀ {c d : Config}, Reaches c d → Balanced s.stack c → Balanced s.stack d := by
    intro c d hreach
    induction hreach with
    | refl => exact fun hc => hc
    | step _ ih => exact fun hc => ih hc.step
  exact (hbalanced h hc.balanced).stack_eq

/-- A function that settles is left with its outcome. -/
theorem Reaches.leave {c : Config} {o : Outcome} {k : List Pending} {s s₁ : State} {f : Frame}
    (h : Reaches c ⟨.done o, .leave :: k, s₁⟩) (hs : s₁.stack = s.stack.push f) :
    Reaches c ⟨.done o, k, Protocol.returned s₁⟩ := by
  refine h.trans (.step ?_)
  rw [Config.step, Machine.hand_leave o k (CallStack.height_ne_zero hs)]
  exact .refl _

end Config

namespace Protocol

open Config

/-- No pair with an argument that is given is left out. -/
theorem isAbsent_of_mem_zip {formals : List Text} {given : List Value}
    (h : given.any Value.isAbsent = false) :
    ∀ pair ∈ formals.zip given, (!pair.2.isAbsent) = true := by
  intro pair hpair
  have harg := List.any_eq_false.mp h pair.2 (List.of_mem_zip hpair).2
  simpa using harg

/-- Without an absent argument all formals are bound. -/
theorem bindFormals_eq {formals : List Text} {args : List Value}
    (h : args.any Value.isAbsent = false) :
    Machine.bindFormals formals args = .ofPairs (formals.zip args) := by
  rw [Machine.bindFormals]
  congr 1
  exact List.takeWhile_eq_self_iff.mpr (isAbsent_of_mem_zip h)

theorem any_isAbsent (given others : List Value) :
    (given ++ .absent :: others).any Value.isAbsent = true := by
  simp [Value.isAbsent]

/-- Formals are bound up to the first absent argument. -/
theorem bindFormals_absent (formals : List Text) {given : List Value} (others : List Value)
    (h : given.any Value.isAbsent = false) :
    Machine.bindFormals formals (given ++ .absent :: others) = .ofPairs (formals.zip given) := by
  rw [Machine.bindFormals]
  congr 1
  induction given generalizing formals with
  | nil =>
      cases formals <;> simp [Value.isAbsent]
  | cons v given ih =>
      rw [List.any_cons, Bool.or_eq_false_iff] at h
      cases formals with
      | nil => rfl
      | cons name formals => simp [h.1, ih formals h.2]

/-- A function is entered with its frame on the call stack and its call in the log. -/
theorem enter_room {env : EnvId} {name : Text} {callee : Callee} {args : List Value} {s : State}
    (hroom : s.stack.isFull = false) (k : List Pending) :
    step ⟨.enter env name callee args, k, s⟩ =
      Machine.runCallee env callee args (.leave :: k)
        (called env ⟨name, callee.isClosure⟩ s) := by
  simp only [step, Machine.enter, hroom]
  rfl

/-- A special primitive gets its operands as they stand. -/
theorem callHead_special (env : EnvId) (head : Value) {g : Native} {operands : List Value}
    (hg : g.mode = .special) (k : List Pending) (s : State) :
    Machine.callHead env head (.native g) operands k s =
      ⟨.enter env ((Callee.native g).callName head) (.native g) operands, k, s⟩ := by
  have hspecial : (Callee.native g).isSpecial = true := by
    simp [Callee.isSpecial, hg]
  exact if_pos hspecial

/-- Any other callee gets the values of its operands, once they are as many as it takes.
-/
theorem callHead_eager (env : EnvId) (head : Value) {callee : Callee} {operands : List Value}
    (hn : callee.Takes operands.length) (hvalues : callee.isSpecial = false) (k : List Pending)
    (s : State) :
    Machine.callHead env head callee.toValue operands k s =
      Machine.evalOperands env (callee.callName head) callee [] operands k s := by
  simp only [Machine.callHead, Callee.ofValue?_toValue, Callee.arityError?_eq_none hn, hvalues]
  rfl

/-- A callee applied to a list of as many arguments as it takes is entered under its own
name. -/
theorem callValue_toValue (env : EnvId) {callee : Callee} {args : List Value}
    (hn : callee.Takes args.length) (k : List Pending) (s : State) :
    Machine.callValue env callee.toValue (.list args) k s =
      ⟨.enter env callee.ownName callee args, k, s⟩ := by
  simp only [Machine.callValue, Callee.ofValue?_toValue, Callee.arityError?_eq_none hn]

/-- A condition that is not a number is refused. -/
theorem resume_notCondition {v : Value} (hv : ∀ x, v ≠ .number x) (env : EnvId) (yes no : Value)
    (k : List Pending) (s : State) :
    Machine.resume v (.choose env yes no) k s =
      ⟨.done (.failure (unsuited (.misused .choose .conditionIsNumber) v s)), k, s⟩ := by
  rw [← Machine.refuse_about]
  cases v with
  | number x => exact absurd rfl (hv x)
  | _ => rfl

/-- Arguments that are not a list are refused. -/
theorem resume_notArguments {v : Value} (hv : ∀ cells, v ≠ .list cells) (env : EnvId) (f : Value)
    (k : List Pending) (s : State) :
    Machine.resume v (.arguments env f) k s =
      ⟨.done (.failure (unsuited (.misused .apply .operandsAreList) v s)), k, s⟩ := by
  rw [← Machine.refuse_about]
  cases v with
  | list cells => exact absurd rfl (hv cells)
  | _ => rfl

/-- How the machine goes on with a call whose last operands have been evaluated. -/
def entered (env : EnvId) (name : Text) (callee : Callee) (done : List Value) (k : List Pending)
    (r : Except Failure (List Value)) (s : State) : Config :=
  match r with
  | .ok args => ⟨.enter env name callee (done.reverse ++ args), k, s⟩
  | .error f => ⟨.done (.failure f), k, s⟩

/-- A value already given is put in front of the arguments still to come. -/
theorem entered_cons (env : EnvId) (name : Text) (callee : Callee) (v : Value)
    (done args : List Value) (k : List Pending) (s : State) :
    entered env name callee (v :: done) k (.ok args) s =
      entered env name callee done k (.ok (v :: args)) s := by
  rw [entered, entered, List.reverse_cons, List.append_assoc, List.singleton_append]

mutual

/-- **The machine gets to what the rules give**, with any work pending. -/
theorem Evaluates.reaches {env : EnvId} {expr : Value} {s s' : State} {o : Outcome}
    (h : Evaluates env expr s o s') (k : List Pending) :
    Reaches ⟨.eval env expr, k, s⟩ ⟨.done o, k, s'⟩ := by
  match h with
  | .number .. => exact .step (.refl _)
  | .closure .. => exact .step (.refl _)
  | .native .. => exact .step (.refl _)
  | .lambda .. => exact .step (.refl _)
  | .bound h =>
      apply Reaches.step
      simp only [step, Machine.eval, h]
      exact .refl _
  | .unbound h =>
      apply Reaches.step
      simp only [step, Machine.eval, h]
      exact .refl _
  | .invalid .. => exact .step (.refl _)
  | .absent .. => exact .step (.refl _)
  | .emptyCall .. => exact .step (.refl _)
  | .headFails hhead => exact .step ((hhead.reaches _).pass rfl)
  | .notCallable hhead hf =>
      refine .step ((hhead.reaches _).resume ?_)
      simp only [Machine.resume, Machine.callHead, Callee.ofValue?_eq_none hf,
        Machine.refuse_about]
      exact .refl _
  | .arityMismatch hhead hn =>
      refine .step ((hhead.reaches _).resume ?_)
      simp only [Machine.resume, Machine.callHead, Callee.ofValue?, Callee.arityError?, if_neg hn]
      exact .refl _
  | .special hhead hg hcall =>
      refine .step ((hhead.reaches _).resume ?_)
      rw [Machine.resume, callHead_special env _ hg]
      exact hcall.reaches k
  | .operandFails hhead hn hvalues hoperands =>
      refine .step ((hhead.reaches _).resume ?_)
      rw [Machine.resume, callHead_eager env _ hn hvalues]
      exact hoperands.reaches _ _ [] k
  | .call hhead hn hvalues hoperands hcall =>
      refine .step ((hhead.reaches _).resume ?_)
      rw [Machine.resume, callHead_eager env _ hn hvalues]
      exact (hoperands.reaches _ _ [] k).trans (hcall.reaches k)
termination_by structural h

/-- The operands that are left are evaluated after those in `done`. -/
theorem EvaluatesAll.reaches {env : EnvId} {exprs : List Value} {s s' : State}
    {r : Except Failure (List Value)} (h : EvaluatesAll env exprs s r s') (name : Text)
    (callee : Callee) (done : List Value) (k : List Pending) :
    Reaches (Machine.evalOperands env name callee done exprs k s)
      (entered env name callee done k r s') := by
  match h with
  | .nil .. =>
      rw [entered, List.append_nil]
      exact .refl _
  | .fails h => exact (h.reaches _).pass rfl
  | .failsLater h hs => exact (h.reaches _).resume (hs.reaches name callee _ k)
  | .cons h hs =>
      rw [← entered_cons]
      exact (h.reaches _).resume (hs.reaches name callee _ k)
termination_by structural h

/-- The machine invokes a callee as the rules say. -/
theorem Invokes.reaches {env : EnvId} {name : Text} {callee : Callee} {args : List Value}
    {s s' : State} {o : Outcome} (h : Invokes env name callee args s o s') (k : List Pending) :
    Reaches ⟨.enter env name callee args, k, s⟩ ⟨.done o, k, s'⟩ := by
  match h with
  | .overflow hfull =>
      apply Reaches.step
      simp only [step, Machine.enter, hfull, if_true]
      exact .refl _
  | .closure hroom hargs hbody =>
      apply Reaches.step
      rw [enter_room hroom]
      simp only [Machine.runCallee, hargs, bindFormals_eq hargs]
      -- The body has restored the call stack, so the frame of this call is the one popped.
      have hstack := stack_eq_of_reaches (Interpreter.eval_goesOn _ _ _) (hbody.reaches [])
      exact (hbody.reaches (.leave :: k)).leave hstack
  | .absentArgument hroom hgiven =>
      apply Reaches.step
      rw [enter_room hroom]
      simp only [Machine.runCallee, any_isAbsent, bindFormals_absent _ _ hgiven, if_true]
      exact (Reaches.refl _).leave (s := s) rfl
  | .operandCount hroom hn =>
      apply Reaches.step
      rw [enter_room hroom]
      rw [Machine.runCallee, Machine.perform, if_neg (Primitive.accepts_iff.not.mpr hn)]
      exact (Reaches.refl _).leave (s := s) rfl
  | .native hroom hn hrule =>
      apply Reaches.step
      rw [enter_room hroom]
      rw [Machine.runCallee, Machine.perform, if_pos (Primitive.accepts_iff.mpr hn)]
      have hstack := stack_eq_of_reaches (Machine.follow_goesOn _ [] _ _ _) (hrule.reaches [])
      exact (hrule.reaches (.leave :: k)).leave hstack
termination_by structural h

/-- The machine performs a primitive as the rules say. -/
theorem Follows.reaches {env : EnvId} {p : Primitive} {args : List Value} {s s' : State}
    {o : Outcome} (h : Follows env p args s o s') (k : List Pending) :
    Reaches (Machine.follow env p args k s) ⟨.done o, k, s'⟩ := by
  match h with
  | .answer h =>
      rw [Machine.follow_answers h]
      exact .refl _
  | .misused h =>
      rw [Machine.follow_misuses h]
      exact .refl _
  | .emptyList hp =>
      rcases hp with hp | hp
      · subst hp
        exact .refl _
      · subst hp
        exact .refl _
  | .absentAsked hp =>
      rcases hp with hp | hp
      · subst hp
        exact .refl _
      · subst hp
        exact .refl _
  | .define h hv =>
      refine (h.reaches _).resume ?_
      simp only [Machine.resume, hv]
      exact .refl _
  | .defineAbsent h hv =>
      refine (h.reaches _).resume ?_
      simp only [Machine.resume, hv]
      exact .refl _
  | .defineFails h => exact (h.reaches _).pass rfl
  | .choose h hbranch => exact (h.reaches _).resume (hbranch.reaches k)
  | .notCondition h hv =>
      refine (h.reaches _).resume ?_
      rw [resume_notCondition hv]
      exact .refl _
  | .conditionFails h => exact (h.reaches _).pass rfl
  | .apply hhead hoperands hcall =>
      exact (hhead.reaches _).resume ((hoperands.reaches _).resume (hcall.reaches k))
  | .notArguments hhead hoperands hv =>
      refine (hhead.reaches _).resume ((hoperands.reaches _).resume ?_)
      rw [resume_notArguments hv]
      exact .refl _
  | .argumentsFail hhead hoperands =>
      exact (hhead.reaches _).resume ((hoperands.reaches _).pass rfl)
  | .functionFails hhead => exact (hhead.reaches _).pass rfl
termination_by structural h

/-- The machine applies a value to arguments as the rules say. -/
theorem Calls.reaches {env : EnvId} {f : Value} {args : List Value} {s s' : State} {o : Outcome}
    (h : Calls env f args s o s') (k : List Pending) :
    Reaches (Machine.callValue env f (.list args) k s) ⟨.done o, k, s'⟩ := by
  match h with
  | .notCallable hf =>
      simp only [Machine.callValue, Callee.ofValue?_eq_none hf, Machine.refuse_about]
      exact .refl _
  | .arityMismatch hn =>
      simp only [Machine.callValue, Callee.ofValue?, Callee.arityError?, if_neg hn]
      exact .refl _
  | .invoke hn hcall =>
      rw [callValue_toValue env hn]
      exact hcall.reaches k
termination_by structural h

end

end Protocol
end LexLisp
