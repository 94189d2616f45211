import LexLisp.Machine.Config

/-!
# The steps of the machine

A call `(h a₁ … aₙ)` goes through these stages: evaluate `h`; check that its
value is a function, and that a closure has as many formals as there are
operands; unless it is a special operator, evaluate the operands from left to
right in the calling environment; push a frame, or fail if the call stack is
full; then run the function.

A closure runs in a fresh environment, a child of the one it captured, in
which its formals are bound to the arguments; a name cannot be bound to an
absent value.  A primitive checks the number of its operands and then follows
its own rule.  When the function is done, by whatever outcome, its frame is
popped.

A value of the wrong type is an error.  To tell that it is of the wrong type its
type is looked at, so where the value is absent there is a panic in place of the
error.

`Config.run` makes a bounded number of steps.
-/

namespace LexLisp

namespace Machine

/-- Go on with a value. -/
def give (v : Value) (k : List Pending) (s : State) : Config :=
  ⟨.done (.value v), k, s⟩

/-- Go on with an error, which keeps a copy of the call stack. -/
def fail (cause : Cause) (k : List Pending) (s : State) : Config :=
  ⟨.done (.failure (.error ⟨cause, some s.stack⟩)), k, s⟩

/-- Go on with a panic. -/
def giveUp (p : Panic) (k : List Pending) (s : State) : Config :=
  ⟨.done (.failure (.panic p)), k, s⟩

/-- Go on with the failure of a refusal. -/
def refuse (r : Refusal) (k : List Pending) (s : State) : Config :=
  ⟨.done (.failure (r.failure s.stack)), k, s⟩

/-- Begin to evaluate an expression. -/
def eval (env : EnvId) (expr : Value) (k : List Pending) (s : State) : Config :=
  match expr with
  | .symbol name =>
    match s.heap.lookup env name with
    | some v => give v k s
    | none => fail (.undefined name) k s
  | .list [] => fail .emptyCall k s
  | .list (head :: operands) => ⟨.eval env head, .operator env head operands :: k, s⟩
  | .lambda formals body => give (.closure formals body (some env)) k s
  | .number _ | .closure _ _ _ | .native _ => give expr k s
  | .invalid _ => fail (.notExpression expr) k s
  | .absent => giveUp .absentAccess k s

/-- Evaluate the operands that are left, and enter the function after the last
one. -/
def evalOperands (env : EnvId) (name : Text) (callee : Callee) (done todo : List Value)
    (k : List Pending) (s : State) : Config :=
  match todo with
  | [] => ⟨.enter env name callee done.reverse, k, s⟩
  | expr :: rest => ⟨.eval env expr, .operand env name callee done rest :: k, s⟩

/-- Call the value of the head `head` with operands that are not evaluated
yet. -/
def callHead (env : EnvId) (head f : Value) (operands : List Value)
    (k : List Pending) (s : State) : Config :=
  match Callee.ofValue? f with
  | none => refuse (.about .headNotFunction f) k s
  | some callee =>
    match callee.arityError? operands.length with
    | some cause => fail cause k s
    | none =>
      if callee.isSpecial then ⟨.enter env (callee.callName head) callee operands, k, s⟩
      else evalOperands env (callee.callName head) callee [] operands k s

/-- Call a value with arguments that are handed over as they are. -/
def callValue (env : EnvId) (f : Value) (args : Value) (k : List Pending) (s : State) : Config :=
  match Callee.ofValue? f with
  | none => refuse (.about .notFunction f) k s
  | some callee =>
    match args with
    | .list args =>
      match callee.arityError? args.length with
      | some cause => fail cause k s
      | none => ⟨.enter env callee.ownName callee args, k, s⟩
    | _ => refuse (.about .argumentsNotList args) k s

/-- The names in a list of formals, or the first element that is no symbol. -/
def formalNames : List Value → Except Value (List Text)
  | [] => .ok []
  | .symbol name :: rest => (formalNames rest).map (name :: ·)
  | v :: _ => .error v

/-- Add up numbers onto a sum, or report the first argument that is not a
number; `index` is the place of the first. -/
def sum (index : Nat) (total : Number) : List Value → Except Refusal Number
  | [] => .ok total
  | .number x :: rest => sum (index + 1) (total.add x) rest
  | v :: _ => .error (.about (.misused .add (.addendIsNumber index)) v)

/-- The elements of a list that must not be empty. -/
def nonEmpty (p : Primitive) : Value → Except Refusal (Value × List Value)
  | .list (first :: rest) => .ok (first, rest)
  | .list [] => .error (.error (.emptyOperand p))
  | v => .error (.about (.misused p .operandIsList) v)

/-- Tell by a number whether a value, which must not be absent, is as asked. -/
def tell (v : Value) (asked : Bool) : Except Refusal Value :=
  if v.isAbsent then .error (.panic .absentAccess) else .ok (.ofBool asked)

/-- Go on with the value that was found, or with the refusal. -/
def conclude (r : Except Refusal Value) (k : List Pending) (s : State) : Config :=
  match r with
  | .ok v => give v k s
  | .error r => refuse r k s

/-- The rule of a primitive, for as many operands as it accepts. -/
def follow (env : EnvId) (p : Primitive) (args : List Value) (k : List Pending) (s : State) :
    Config :=
  match p, args with
  | .quote, [expr] => give expr k s
  | .define, [name, expr] =>
    match name with
    | .symbol name => ⟨.eval env expr, .define env name :: k, s⟩
    | _ => refuse (.about (.misused .define .nameIsSymbol) name) k s
  | .function, [formals, body] =>
    match formals with
    | .list formals =>
      match formalNames formals with
      | .ok names => give (.closure names body (some env)) k s
      | .error v => refuse (.about (.misused .function .formalIsSymbol) v) k s
    | _ => refuse (.about (.misused .function .formalsAreList) formals) k s
  | .choose, [condition, yes, no] => ⟨.eval env condition, .choose env yes no :: k, s⟩
  | .apply, [f, operands] => ⟨.eval env f, .applied env operands :: k, s⟩
  | .isNumber, [expr] => conclude (tell expr (expr matches .number _)) k s
  | .isSymbol, [expr] => conclude (tell expr (expr matches .symbol _)) k s
  | .add, args => conclude ((sum 0 .zero args).map .number) k s
  | .list, args => give (.list args) k s
  | .first, [v] => conclude ((nonEmpty .first v).map fun (first, _) => first) k s
  | .rest, [v] => conclude ((nonEmpty .rest v).map fun (_, rest) => .list rest) k s
  | _, _ => giveUp .absentOperand k s

/-- Run a primitive. -/
def perform (env : EnvId) (p : Primitive) (args : List Value) (k : List Pending) (s : State) :
    Config :=
  if p.accepts args.length then follow env p args k s
  else fail (.operandCount p args.length) k s

/-- Bind formals to arguments in order, up to the first that is absent. -/
def bindFormals (formals : List Text) (args : List Value) : Bindings :=
  .ofPairs ((formals.zip args).takeWhile fun (_, arg) => !arg.isAbsent)

/-- Run a function whose frame has been pushed. -/
def runCallee (env : EnvId) (callee : Callee) (args : List Value) (k : List Pending) (s : State) :
    Config :=
  match callee with
  | .native f => perform env f.primitive args k s
  | .closure formals body captured =>
    let callEnv := s.heap.size
    let fresh := ⟨captured, s.heap.sessionOf env, bindFormals formals args⟩
    let s := { s with heap := s.heap.push fresh }
    if args.any Value.isAbsent then giveUp .absentValue k s else ⟨.eval callEnv body, k, s⟩

/-- Push the frame of a call and log the call. -/
def pushFrame (env : EnvId) (frame : Frame) (s : State) : State :=
  let call := ⟨frame, env, s.stack.height + 1⟩
  { s with stack := s.stack.push frame, calls := s.calls.push call }

/-- Enter a function: push a frame and run it, unless the call stack is
full. -/
def enter (env : EnvId) (name : Text) (callee : Callee) (args : List Value) (k : List Pending)
    (s : State) : Config :=
  if s.stack.isFull then fail (.overflow s.stack.maxHeight name) k s
  else runCallee env callee args (.leave :: k) (pushFrame env ⟨name, callee.isClosure⟩ s)

/-- Leave a function with whatever outcome it has: its frame is popped. -/
def leave (outcome : Outcome) (k : List Pending) (s : State) : Config :=
  if s.stack.height = 0 then giveUp .emptyStack k s
  else ⟨.done outcome, k, { s with stack := s.stack.pop }⟩

/-- Hand a value to the work that awaits it. -/
def resume (v : Value) (p : Pending) (k : List Pending) (s : State) : Config :=
  match p with
  | .operator env head operands => callHead env head v operands k s
  | .operand env name callee done todo => evalOperands env name callee (v :: done) todo k s
  | .leave => leave (.value v) k s
  | .define env name =>
    if v.isAbsent then giveUp .absentValue k s
    else give (.symbol name) k { s with heap := s.heap.define env name v }
  | .choose env yes no =>
    match v with
    | .number x => ⟨.eval env (if x.isZero then no else yes), k, s⟩
    | _ => refuse (.about (.misused .choose .conditionIsNumber) v) k s
  | .applied env operands => ⟨.eval env operands, .arguments env v :: k, s⟩
  | .arguments env f =>
    match v with
    | .list _ => callValue env f v k s
    | _ => refuse (.about (.misused .apply .operandsAreList) v) k s

/-- Hand an outcome to the work that awaits it.  A failure is passed on at
once, but for the frames to be popped on its way. -/
def hand (outcome : Outcome) (p : Pending) (k : List Pending) (s : State) : Config :=
  match outcome, p with
  | .value v, p => resume v p k s
  | .failure f, .leave => leave (.failure f) k s
  | .failure f, _ => ⟨.done (.failure f), k, s⟩

end Machine

namespace Config

/-- One step of the machine.  A configuration in which nothing awaits the
outcome stays as it is. -/
def step : Config → Config
  | ⟨.eval env expr, k, s⟩ => Machine.eval env expr k s
  | ⟨.enter env name callee args, k, s⟩ => Machine.enter env name callee args k s
  | ⟨.done outcome, p :: k, s⟩ => Machine.hand outcome p k s
  | ⟨.done outcome, [], s⟩ => ⟨.done outcome, [], s⟩

/-- Make steps until nothing awaits the outcome, but not more than so many. -/
def run : Nat → Config → Option (Outcome × State)
  | _, ⟨.done outcome, [], s⟩ => some (outcome, s)
  | 0, _ => none
  | n + 1, c => run n c.step

@[simp] theorem run_done (n : Nat) (outcome : Outcome) (s : State) :
    run n ⟨.done outcome, [], s⟩ = some (outcome, s) := by
  cases n <;> rfl

/-- A run that has ended is not changed by more steps. -/
theorem run_eq_of_le {n m : Nat} {c : Config} {r : Outcome × State} (hle : n ≤ m)
    (h : run n c = some r) : run m c = some r := by
  induction n generalizing m c with
  | zero =>
      obtain ⟨control, pending, s⟩ := c
      cases control with
      | done outcome =>
          cases pending with
          | nil => simpa using h
          | cons _ _ => simp [run] at h
      | eval _ _ => simp [run] at h
      | enter _ _ _ _ => simp [run] at h
  | succ n ih =>
      obtain ⟨m, rfl⟩ : ∃ k, m = k + 1 := ⟨m - 1, by omega⟩
      have hrest : ∀ {d : Config}, run n d = some r → run m d = some r := ih (by omega)
      obtain ⟨control, pending, s⟩ := c
      cases control with
      | done outcome =>
          cases pending with
          | nil => simpa using h
          | cons _ _ => exact hrest h
      | eval _ _ => exact hrest h
      | enter _ _ _ _ => exact hrest h

/-- More steps than any computer makes in a lifetime. -/
def plenty : Nat := Nat.pow 10 18

end Config

end LexLisp
