import LexLisp.Proofs.ValueInvariant

/-!
# Termination under a stack limit

A configuration *settles* if the machine gets from it to an outcome, with given
work still pending and the call stack as it was.  Where the height of the call
stack is limited, everything settles.  The argument is an induction on the
frames that still find room on the call stack, and within it on the expression:

* with no room left a call fails at once;
* with room for one more frame, a call settles because all it evaluates (the
  body of a closure, the operands of a special operator, whatever `apply` makes
  of them) is evaluated with less room (`settlesEnter_of_push`);
* an expression settles because its parts do and the calls it makes do
  (`settlesEval_of_enter`).
-/

namespace LexLisp

namespace Config

/-- The machine gets from one configuration to another. -/
inductive Reaches : Config → Config → Prop
  | refl (c : Config) : Reaches c c
  | step {c d : Config} (h : Reaches c.step d) : Reaches c d

theorem Reaches.trans {c d f : Config} (hcd : Reaches c d) (hdf : Reaches d f) : Reaches c f := by
  induction hcd with
  | refl => exact hdf
  | step _ ih => exact .step (ih hdf)

/-- What holds at the beginning and is preserved by every step holds of all that is
reached. -/
theorem Reaches.invariant {P : Config → Prop} (hstep : ∀ c, P c → P c.step) {c d : Config}
    (h : P c) (hreach : Reaches c d) : P d := by
  induction hreach with
  | refl => exact h
  | step _ ih => exact ih (hstep _ h)

/-- A run that ends reaches its outcome. -/
theorem reaches_of_run {n : Nat} {c : Config} {outcome : Outcome} {s : State}
    (h : run n c = some (outcome, s)) : Reaches c ⟨.done outcome, [], s⟩ :=
  run_invariant (P := Reaches c) (fun _ hd => hd.trans (.step (.refl _))) (.refl c) h

/-- A configuration with nothing pending is the end of a run. -/
theorem Reaches.exists_run {c : Config} {outcome : Outcome} {s : State}
    (h : Reaches c ⟨.done outcome, [], s⟩) : ∃ n, run n c = some (outcome, s) := by
  generalize hd : (⟨.done outcome, [], s⟩ : Config) = d at h
  induction h with
  | refl c =>
      subst hd
      exact ⟨0, rfl⟩
  | @step c d _ ih =>
      obtain ⟨n, hn⟩ := ih hd
      exact ⟨n + 1, (run_succ n c).trans hn⟩

/-- The machine gets to an outcome for the pending work `k`, and then has the
call stack `st`. -/
def Settles (c : Config) (k : List Pending) (st : CallStack) : Prop :=
  ∃ outcome s, Reaches c ⟨.done outcome, k, s⟩ ∧ s.stack = st

namespace Settles

variable {c : Config} {k : List Pending} {st : CallStack}

theorem step (h : Settles c.step k st) : Settles c k st := by
  obtain ⟨outcome, s, hreach, hstack⟩ := h
  exact ⟨outcome, s, .step hreach, hstack⟩

theorem done (outcome : Outcome) {s : State} (hs : s.stack = st) :
    Settles ⟨.done outcome, k, s⟩ k st :=
  ⟨outcome, s, .refl _, hs⟩

/-- A value goes to the work that awaits it, a failure passes it by. -/
theorem resume {p : Pending} (h : Settles c (p :: k) st) (hp : p.isLeave = false)
    (hnext : ∀ v s, s.stack = st → Settles (Machine.resume v p k s) k st) : Settles c k st := by
  obtain ⟨outcome, s, hreach, hs⟩ := h
  have hhand : Settles ⟨.done outcome, p :: k, s⟩ k st := by
    apply step
    cases outcome with
    | value v => exact hnext v s hs
    | failure f =>
        cases p with
        | leave => simp [Pending.isLeave] at hp
        | _ => exact done _ hs
  obtain ⟨result, s', hreach', hs'⟩ := hhand
  exact ⟨result, s', hreach.trans hreach', hs'⟩

/-- An open call is left with whatever outcome it has. -/
theorem leave (h : Settles c (.leave :: k) st) (hst : 0 < st.height) : Settles c k st.pop := by
  obtain ⟨outcome, s, hreach, hs⟩ := h
  refine ⟨outcome, { s with stack := s.stack.pop }, hreach.trans (.step ?_), by rw [hs]⟩
  have hleave : Machine.leave outcome k s = ⟨.done outcome, k, { s with stack := s.stack.pop }⟩ := by
    rw [Machine.leave, if_neg (by rw [hs]; omega)]
  cases outcome with
  | value v => exact hleave ▸ .refl _
  | failure f => exact hleave ▸ .refl _

end Settles

end Config

namespace Machine

open Config

/-- An expression settles wherever the call stack is `st`. -/
def SettlesEval (st : CallStack) (expr : Value) : Prop :=
  ∀ env k s, s.stack = st → Settles ⟨.eval env expr, k, s⟩ k st

/-- A function call settles wherever the call stack is `st`. -/
def SettlesEnter (st : CallStack) : Prop :=
  ∀ env name callee args k s, s.stack = st → Settles ⟨.enter env name callee args, k, s⟩ k st

variable {st : CallStack} (env : EnvId) (k : List Pending) {s : State}

/-- To go on with an outcome is to settle. -/
theorem settles_conclude (r : Except Refusal Value) (hs : s.stack = st) :
    Settles (conclude r k s) k st := by
  cases r with
  | ok v => exact .done _ hs
  | error refusal => exact .done _ hs

/-- A call settles once its operands do. -/
theorem settles_evalOperands (hcall : SettlesEnter st) (name : Text) (callee : Callee)
    {todo : List Value} (htodo : ∀ expr ∈ todo, SettlesEval st expr) (done : List Value)
    (hs : s.stack = st) : Settles (evalOperands env name callee done todo k s) k st := by
  induction todo generalizing done s with
  | nil => exact hcall env name callee _ k s hs
  | cons expr rest ih =>
      have hexpr := htodo expr List.mem_cons_self env (.operand env name callee done rest :: k) s hs
      refine hexpr.resume rfl ?_
      intro v s' hs'
      exact ih (fun x hx => htodo x (List.mem_cons_of_mem _ hx)) (v :: done) hs'

/-- A call settles if its operands and the entering of functions do. -/
theorem settles_callHead (hcall : SettlesEnter st) (head f : Value) {operands : List Value}
    (hoperands : ∀ expr ∈ operands, SettlesEval st expr) (hs : s.stack = st) :
    Settles (callHead env head f operands k s) k st := by
  unfold callHead
  split
  · exact .done _ hs
  · split
    · exact .done _ hs
    · split
      · exact hcall _ _ _ _ _ _ hs
      · exact settles_evalOperands env k hcall _ _ hoperands [] hs

/-- An application settles if the entering of functions does. -/
theorem settles_callValue (hcall : SettlesEnter st) (f args : Value) (hs : s.stack = st) :
    Settles (callValue env f args k s) k st := by
  unfold callValue
  split
  · exact .done _ hs
  · split
    · split
      · exact .done _ hs
      · exact hcall _ _ _ _ _ _ hs
    · exact .done _ hs

/-- **Expressions settle if calls do.**  The parts of an expression are evaluated
with the same call stack, so the induction is on the expression. -/
theorem settlesEval_of_enter (hcall : SettlesEnter st) (expr : Value) : SettlesEval st expr := by
  intro env k s hs
  apply Settles.step
  match expr with
  | .list (head :: operands) =>
      have hparts : ∀ x ∈ head :: operands, SettlesEval st x :=
        fun x _ => settlesEval_of_enter hcall x
      have hhead := hparts head List.mem_cons_self env (.operator env head operands :: k) s hs
      refine hhead.resume rfl ?_
      intro f s' hs'
      exact settles_callHead env k hcall head f
        (fun x hx => hparts x (List.mem_cons_of_mem _ hx)) hs'
  | .symbol name =>
      simp only [Config.step, eval]
      split
      · exact .done _ hs
      · exact .done _ hs
  | .list [] => exact .done _ hs
  | .lambda _ _ => exact .done _ hs
  | .number _ => exact .done _ hs
  | .closure _ _ _ => exact .done _ hs
  | .native _ => exact .done _ hs
  | .invalid _ => exact .done _ hs
  | .absent => exact .done _ hs
termination_by expr

/-- The rule of a primitive settles if expressions and calls do. -/
theorem settles_follow (heval : ∀ expr, SettlesEval st expr) (hcall : SettlesEnter st)
    (p : Primitive) (args : List Value) (hs : s.stack = st) :
    Settles (follow env p args k s) k st := by
  unfold follow
  split
  · exact .done _ hs
  · split
    · rename_i name
      refine (heval _ env (.define env name :: k) s hs).resume rfl ?_
      intro v s' hs'
      simp only [resume]
      split
      · exact .done _ hs'
      · exact .done _ hs'
    · exact .done _ hs
  · split
    · split
      · exact .done _ hs
      · exact .done _ hs
    · exact .done _ hs
  · rename_i condition yes no
    refine (heval condition env (.choose env yes no :: k) s hs).resume rfl ?_
    intro v s' hs'
    simp only [resume]
    split
    · exact heval _ _ _ _ hs'
    · exact .done _ hs'
  · rename_i f operands
    refine (heval f env (.applied env operands :: k) s hs).resume rfl ?_
    intro f' s' hs'
    refine (heval operands env (.arguments env f' :: k) s' hs').resume rfl ?_
    intro v s'' hs''
    simp only [resume]
    split
    · exact settles_callValue env k hcall f' _ hs''
    · exact .done _ hs''
  · exact settles_conclude k _ hs
  · exact settles_conclude k _ hs
  · exact settles_conclude k _ hs
  · exact .done _ hs
  · exact settles_conclude k _ hs
  · exact settles_conclude k _ hs
  · exact .done _ hs

/-- A function whose frame is on the call stack settles if expressions and
calls do. -/
theorem settles_runCallee (heval : ∀ expr, SettlesEval st expr) (hcall : SettlesEnter st)
    (callee : Callee) (args : List Value) (hs : s.stack = st) :
    Settles (runCallee env callee args k s) k st := by
  cases callee with
  | native f =>
      simp only [runCallee, perform]
      split
      · exact settles_follow env k heval hcall f.primitive args hs
      · exact .done _ hs
  | closure formals body captured =>
      simp only [runCallee]
      split
      · exact .done _ hs
      · exact heval body _ k _ hs

/-- **Calls settle if all that they evaluate does.**  A call is made with one
more frame on the call stack, and pops it when it is left. -/
theorem settlesEnter_of_push (h : st.isFull = false → ∀ f, SettlesEnter (st.push f)) :
    SettlesEnter st := by
  intro env name callee args k s hs
  apply Settles.step
  simp only [Config.step, enter, hs]
  split
  · exact .done _ hs
  · rename_i hroom
    have hcall := h (by simpa using hroom) ⟨name, callee.isClosure⟩
    have hrun := settles_runCallee env (.leave :: k) (settlesEval_of_enter hcall) hcall callee args
      (s := pushFrame env ⟨name, callee.isClosure⟩ s) (congrArg (CallStack.push · _) hs)
    simpa using hrun.leave (by simp)

end Machine

namespace CallStack

/-- The frames that find room on a call stack of limited height. -/
def room (st : CallStack) : Nat := (st.maxHeight - st.height).toNat

/-- A frame that is pushed takes up room. -/
theorem room_push_lt {st : CallStack} (hlimit : 0 < st.maxHeight) (hfull : st.isFull = false)
    (f : Frame) : (st.push f).room < st.room := by
  have hlt : (st.height : Int) < st.maxHeight := by
    simp only [isFull, Bool.and_eq_false_iff, decide_eq_false_iff_not] at hfull
    omega
  have hmax : (st.push f).maxHeight = st.maxHeight := rfl
  simp only [room, height_push, hmax]
  omega

end CallStack

namespace Machine

/-- **Everything settles under a limit.**  The induction is on the room left on
the call stack, however many frames are on it already. -/
theorem settlesEnter_of_limit {st : CallStack} (hlimit : 0 < st.maxHeight) : SettlesEnter st := by
  apply settlesEnter_of_push
  intro hfull f
  have := CallStack.room_push_lt hlimit hfull f
  exact @settlesEnter_of_limit (st.push f) hlimit
termination_by st.room

end Machine

namespace Interpreter

/-- A limit on the call stack makes every evaluation return. -/
theorem eval_returns (i : Interpreter) (e : EnvId) (expr : Value)
    (hlimit : 0 < (i.stackOf e).maxHeight) : ∃ n ev, i.eval e expr n = some ev := by
  have hcall := Machine.settlesEnter_of_limit hlimit
  obtain ⟨outcome, s, hreach, -⟩ :=
    Machine.settlesEval_of_enter hcall expr e [] (i.state e) rfl
  obtain ⟨n, hn⟩ := hreach.exists_run
  exact ⟨n, _, run_eq_some_iff.mpr ⟨outcome, s, hn, rfl⟩⟩

/-- **Termination under a stack limit.**  Where the height of the call stack is
limited, every evaluation ends, however many frames there are already: with a
value or an error, unless a value with an absent part was left in its way. -/
theorem eval_terminates_under_limit (i : Interpreter) (e : EnvId) (expr : Value)
    (hlimit : 0 < (i.stackOf e).maxHeight) :
    ∃ n ev, i.eval e expr n = some ev ∧
      (i.heap.Complete → expr.Complete →
        (∃ v, ev.outcome = .value v) ∨ ∃ err, ev.outcome = .failure (.error err)) := by
  obtain ⟨n, ev, hev⟩ := eval_returns i e expr hlimit
  exact ⟨n, ev, hev, fun hheap hexpr => (eval_complete hheap hexpr hev).2⟩

/-- A closure that does nothing but call itself comes to an end. -/
theorem endless_recursion_terminates :
    ∃ i : Interpreter, i = ⟨#[⟨none, 0, [("f", .closure [] (.list [.symbol "f"]) (some 0))]⟩],
        #[⟨.empty 3, false⟩]⟩ ∧
      0 < (i.stackOf 0).maxHeight ∧
      ∃ n ev, i.eval 0 (.list [.symbol "f"]) n = some ev ∧
        ((∃ v, ev.outcome = .value v) ∨ ∃ err, ev.outcome = .failure (.error err)) := by
  have hlimit : 0 < (stackOf ⟨#[⟨none, 0, [("f", .closure [] (.list [.symbol "f"]) (some 0))]⟩],
      #[⟨.empty 3, false⟩]⟩ 0).maxHeight := by decide +kernel
  obtain ⟨n, ev, hev, hends⟩ := eval_terminates_under_limit _ 0 (.list [.symbol "f"]) hlimit
  refine ⟨_, rfl, hlimit, n, ev, hev, hends ?_ ⟨rfl, rfl, trivial⟩⟩
  intro a b hb
  cases a with
  | zero =>
      obtain rfl := List.mem_singleton.mp hb
      exact ⟨rfl, rfl, rfl, trivial⟩
  | succ a => cases hb

end Interpreter

end LexLisp
