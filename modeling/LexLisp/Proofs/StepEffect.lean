import LexLisp.Machine.Step

/-!
# What a step may change

A step of the machine touches the state in one of four ways, or not at all: it
binds a name, pushes the frame of a call, pushes a frame and creates the
environment of the call, or pops a frame.  `Effect` lists these ways together
with what they do to the work ahead: how many calls are still to be left, and
in which environments work goes on.

Every invariant of a run that does not look into values is a case analysis over
`Effect`.  The key facts are

* `step_effect` — every step has one of these effects;
* `run_invariant` — what every step preserves holds when the run ends.
-/

namespace LexLisp

namespace Control

/-- The environment in which the machine is at work. -/
def env? : Control → Option EnvId
  | eval env _ => some env
  | enter env _ _ _ => some env
  | done _ => none

end Control

namespace Pending

/-- The environment in which the work will go on. -/
def env? : Pending → Option EnvId
  | operator env _ _ => some env
  | operand env _ _ _ _ => some env
  | leave => none
  | define env _ => some env
  | choose env _ _ => some env
  | applied env _ => some env
  | arguments env _ => some env

/-- Is a call to be left? -/
def isLeave : Pending → Bool
  | leave => true
  | _ => false

/-- How many calls are to be left. -/
def depth (k : List Pending) : Nat := k.countP isLeave

/-- The environments in which work will go on. -/
def envs (k : List Pending) : List EnvId := k.filterMap env?

@[simp] theorem depth_nil : depth [] = 0 := rfl

/-- Each call still to be left is a level of depth. -/
@[simp] theorem depth_cons (p : Pending) (k : List Pending) :
    depth (p :: k) = depth k + if p.isLeave then 1 else 0 := by
  simp [depth, List.countP_cons]

@[simp] theorem envs_nil : envs [] = [] := rfl

/-- The environments of pending work are those of its parts, in order. -/
@[simp] theorem envs_cons (p : Pending) (k : List Pending) :
    envs (p :: k) = p.env?.toList ++ envs k := by
  cases h : p.env? <;> simp [envs, h]

end Pending

namespace Config

/-- How many calls have been entered and not left. -/
def depth (c : Config) : Nat := Pending.depth c.pending

/-- The environments in which the machine is at work, now or later. -/
def envs (c : Config) : List EnvId :=
  c.control.env?.toList ++ Pending.envs c.pending

@[simp] theorem depth_mk (control : Control) (k : List Pending) (s : State) :
    depth ⟨control, k, s⟩ = Pending.depth k := rfl

@[simp] theorem envs_mk (control : Control) (k : List Pending) (s : State) :
    envs ⟨control, k, s⟩ = control.env?.toList ++ Pending.envs k := rfl

end Config

/-- From the configuration `c` the machine gets to `d` without leaving a call,
and with work in no environment that it had no work in. -/
structure SameWork (c d : Config) : Prop where
  depth : d.depth = c.depth
  envs : d.envs ⊆ c.envs

/-- The effect of a step. -/
inductive Effect (c : Config) : Config → Prop
  /-- The state stays as it is. -/
  | quiet {d : Config} (hstate : d.state = c.state) (hwork : SameWork c d) : Effect c d
  /-- A name is bound in an environment at work. -/
  | define {d : Config} (env : EnvId) (name : Text) (v : Value) (henv : env ∈ c.envs)
      (hstate : d.state = { c.state with heap := c.state.heap.define env name v })
      (hwork : SameWork c d) : Effect c d
  /-- A primitive is called: its frame is pushed. -/
  | callNative {d : Config} (env : EnvId) (name : Text) (henv : env ∈ c.envs)
      (hroom : c.state.stack.isFull = false)
      (hstate : d.state = Machine.pushFrame env ⟨name, false⟩ c.state)
      (hdepth : d.depth = c.depth + 1) (henvs : d.envs ⊆ c.envs) : Effect c d
  /-- A closure is called: its frame is pushed, and its environment created in
  the session of the caller. -/
  | callClosure {d : Config} (env : EnvId) (name : Text) (captured : Option EnvId)
      (bindings : Bindings) (henv : env ∈ c.envs) (hroom : c.state.stack.isFull = false)
      (hstate : d.state =
        { Machine.pushFrame env ⟨name, true⟩ c.state with
          heap := c.state.heap.push ⟨captured, c.state.heap.sessionOf env, bindings⟩ })
      (hdepth : d.depth = c.depth + 1) (henvs : d.envs ⊆ c.state.heap.size :: c.envs) :
      Effect c d
  /-- A call is left: its frame is popped. -/
  | leave {d : Config} (hheight : 0 < c.state.stack.height)
      (hstate : d.state = { c.state with stack := c.state.stack.pop })
      (hdepth : c.depth = d.depth + 1) (henvs : d.envs ⊆ c.envs) : Effect c d
  /-- A call is to be left, but the call stack is empty. -/
  | stuck {d : Config} (hheight : c.state.stack.height = 0) (hstate : d.state = c.state)
      (hdepth : c.depth = d.depth + 1) (henvs : d.envs ⊆ c.envs) : Effect c d

namespace Machine

/-- The configuration `d` goes on from the state `s` with the pending work `k`
and with nothing more than work in `env`. -/
structure GoesOn (env : EnvId) (k : List Pending) (s : State) (d : Config) : Prop where
  state : d.state = s
  depth : d.depth = Pending.depth k
  envs : d.envs ⊆ env :: Pending.envs k

variable (env : EnvId) (k : List Pending) (s : State)

/-- To give a value touches nothing. -/
theorem give_goesOn (v : Value) : GoesOn env k s (give v k s) :=
  ⟨rfl, rfl, by simp [give, Control.env?]⟩

/-- To fail touches nothing, for the error only holds a copy of the call stack. -/
theorem fail_goesOn (cause : Cause) : GoesOn env k s (fail cause k s) :=
  ⟨rfl, rfl, by simp [fail, Control.env?]⟩

/-- To give up touches nothing. -/
theorem giveUp_goesOn (p : Panic) : GoesOn env k s (giveUp p k s) :=
  ⟨rfl, rfl, by simp [giveUp, Control.env?]⟩

/-- A refusal goes on, with its error or its panic. -/
theorem refuse_goesOn (r : Refusal) : GoesOn env k s (refuse r k s) :=
  ⟨rfl, rfl, by simp [refuse, Control.env?]⟩

/-- A primitive that evaluates nothing goes on with its answer. -/
theorem conclude_goesOn (r : Except Refusal Value) : GoesOn env k s (conclude r k s) := by
  cases r with
  | ok v => exact give_goesOn env k s v
  | error r => exact refuse_goesOn env k s r

/-- Work in `env` may begin by evaluating an expression, before work that goes
on in `env` itself. -/
theorem evalFirst_goesOn (expr : Value) (p : Pending) (henv : p.env? = some env)
    (hleave : p.isLeave = false) : GoesOn env k s ⟨.eval env expr, p :: k, s⟩ :=
  ⟨rfl, by simp [hleave], by simp [Control.env?, henv]⟩

/-- A call that is about to be entered has touched nothing yet. -/
theorem enter_goesOn (name : Text) (callee : Callee) (args : List Value) :
    GoesOn env k s ⟨.enter env name callee args, k, s⟩ :=
  ⟨rfl, rfl, by simp [Control.env?]⟩

/-- To take an expression apart touches nothing and works in its environment only. -/
theorem eval_goesOn (expr : Value) : GoesOn env k s (eval env expr k s) := by
  unfold eval
  split
  · split
    · exact give_goesOn env k s _
    · exact fail_goesOn env k s _
  · exact fail_goesOn env k s _
  · exact evalFirst_goesOn env k s _ _ rfl rfl
  · exact give_goesOn env k s _
  · exact give_goesOn env k s _
  · exact give_goesOn env k s _
  · exact give_goesOn env k s _
  · exact fail_goesOn env k s _
  · exact giveUp_goesOn env k s _

/-- To evaluate the operands one by one only adds pending work. -/
theorem evalOperands_goesOn (name : Text) (callee : Callee) (done todo : List Value) :
    GoesOn env k s (evalOperands env name callee done todo k s) := by
  cases todo with
  | nil => exact enter_goesOn env k s _ _ _
  | cons expr rest => exact evalFirst_goesOn env k s _ _ rfl rfl

/-- To call what stands at the head of a form goes on in its environment. -/
theorem callHead_goesOn (head f : Value) (operands : List Value) :
    GoesOn env k s (callHead env head f operands k s) := by
  unfold callHead
  split
  · exact refuse_goesOn env k s _
  · split
    · exact fail_goesOn env k s _
    · split
      · exact enter_goesOn env k s _ _ _
      · exact evalOperands_goesOn env k s _ _ _ _

/-- To apply a value goes on in the environment it is applied in. -/
theorem callValue_goesOn (f args : Value) : GoesOn env k s (callValue env f args k s) := by
  unfold callValue
  split
  · exact refuse_goesOn env k s _
  · split
    · split
      · exact fail_goesOn env k s _
      · exact enter_goesOn env k s _ _ _
    · exact refuse_goesOn env k s _

/-- The rules of primitives write nothing themselves. -/
theorem follow_goesOn (p : Primitive) (args : List Value) :
    GoesOn env k s (follow env p args k s) := by
  unfold follow
  split
  · exact give_goesOn env k s _
  · split
    · exact evalFirst_goesOn env k s _ _ rfl rfl
    · exact refuse_goesOn env k s _
  · split
    · split
      · exact give_goesOn env k s _
      · exact refuse_goesOn env k s _
    · exact refuse_goesOn env k s _
  · exact evalFirst_goesOn env k s _ _ rfl rfl
  · exact evalFirst_goesOn env k s _ _ rfl rfl
  · exact conclude_goesOn env k s _
  · exact conclude_goesOn env k s _
  · exact conclude_goesOn env k s _
  · exact give_goesOn env k s _
  · exact conclude_goesOn env k s _
  · exact conclude_goesOn env k s _
  · exact giveUp_goesOn env k s _

/-- A primitive goes on whether or not it takes as many arguments as it got. -/
theorem perform_goesOn (p : Primitive) (args : List Value) :
    GoesOn env k s (perform env p args k s) := by
  unfold perform
  split
  · exact follow_goesOn env k s p args
  · exact fail_goesOn env k s _

variable {env k}

/-- Going on without touching the state is a quiet effect. -/
theorem GoesOn.quiet {c d : Config} (h : GoesOn env k c.state d)
    (hdepth : Pending.depth k = c.depth) (henvs : env :: Pending.envs k ⊆ c.envs) : Effect c d :=
  .quiet h.state ⟨h.depth.trans hdepth, List.Subset.trans h.envs henvs⟩

/-- Entering a function has the effect of a call, unless the call stack is
full. -/
theorem enter_effect (name : Text) (callee : Callee) (args : List Value) :
    Effect ⟨.enter env name callee args, k, s⟩ (enter env name callee args k s) := by
  have henv : env ∈ Config.envs ⟨.enter env name callee args, k, s⟩ := by simp [Control.env?]
  unfold enter
  split
  · exact (fail_goesOn env k s _).quiet rfl (by simp [Control.env?])
  · have hroom : s.stack.isFull = false := by simp_all
    cases callee with
    | native f =>
        have hon := perform_goesOn env (.leave :: k) (pushFrame env ⟨name, false⟩ s) f.primitive args
        refine .callNative env name henv hroom hon.state (hon.depth.trans ?_)
          (List.Subset.trans hon.envs ?_)
        · simp [Pending.isLeave]
        · simp [Pending.env?, Control.env?]
    | closure formals body captured =>
        simp only [runCallee]
        split
        · exact .callClosure env name captured _ henv hroom rfl (by simp [giveUp, Pending.isLeave])
            (by simp [giveUp, Control.env?, Pending.env?])
        · refine .callClosure env name captured _ henv hroom rfl (by simp [Pending.isLeave]) ?_
          intro a ha
          simp only [Config.envs_mk, Control.env?, Pending.envs_cons, Pending.env?] at ha ⊢
          grind [pushFrame]

/-- Leaving a function pops a frame, if there is one. -/
theorem leave_effect (outcome result : Outcome) :
    Effect ⟨.done outcome, .leave :: k, s⟩ (leave result k s) := by
  unfold leave
  split
  · rename_i hheight
    exact .stuck hheight rfl (by simp [giveUp, Pending.isLeave])
      (by simp [giveUp, Control.env?, Pending.env?])
  · rename_i hheight
    exact .leave (Nat.pos_of_ne_zero hheight) rfl (by simp [Pending.isLeave])
      (by simp [Control.env?, Pending.env?])

/-- Handing a value on has an effect only where a name is bound or a call is
left. -/
theorem resume_effect (v : Value) (p : Pending) :
    Effect ⟨.done (.value v), p :: k, s⟩ (resume v p k s) := by
  -- Work that stays in the environment of `p` is quiet.
  have hquiet : ∀ {env d}, p.env? = some env → p.isLeave = false → GoesOn env k s d →
      Effect ⟨.done (.value v), p :: k, s⟩ d := by
    intro env d henv hleave hon
    exact hon.quiet (by simp [hleave]) (by simp [Control.env?, henv])
  cases p with
  | operator env head operands => exact hquiet rfl rfl (callHead_goesOn env k s _ _ _)
  | operand env name callee done todo =>
      exact hquiet rfl rfl (evalOperands_goesOn env k s _ _ _ _)
  | leave => exact leave_effect s _ _
  | define env name =>
      simp only [resume]
      split
      · exact hquiet rfl rfl (giveUp_goesOn env k s _)
      · exact .define env name v (by simp [Control.env?, Pending.env?]) rfl
          ⟨by simp [give, Pending.isLeave], by simp [give, Control.env?]⟩
  | choose env yes no =>
      refine hquiet rfl rfl ?_
      simp only [resume]
      split
      · exact ⟨rfl, rfl, by simp [Control.env?]⟩
      · exact refuse_goesOn env k s _
  | applied env operands => exact hquiet rfl rfl (evalFirst_goesOn env k s _ _ rfl rfl)
  | arguments env f =>
      refine hquiet rfl rfl ?_
      simp only [resume]
      split
      · exact callValue_goesOn env k s _ _
      · exact refuse_goesOn env k s _

end Machine

namespace Config

/-- **Every step has an effect.**  A step changes the state in one of the ways
that `Effect` lists. -/
theorem step_effect (c : Config) : Effect c c.step := by
  obtain ⟨control, pending, s⟩ := c
  cases control with
  | eval env expr =>
      exact (Machine.eval_goesOn env pending s expr).quiet rfl (by simp [Control.env?])
  | enter env name callee args => exact Machine.enter_effect s name callee args
  | done outcome =>
      cases pending with
      | nil => exact .quiet rfl ⟨rfl, fun _ h => h⟩
      | cons p k =>
          cases outcome with
          | value v => exact Machine.resume_effect s v p
          | failure f =>
              cases p with
              | leave => exact Machine.leave_effect s _ _
              | _ =>
                  exact .quiet rfl ⟨by simp [step, Machine.hand, Pending.isLeave],
                    by simp [step, Machine.hand, Control.env?]⟩

/-- A run goes on from the next configuration. -/
theorem run_succ (n : Nat) (c : Config) : run (n + 1) c = run n c.step := by
  obtain ⟨control, pending, s⟩ := c
  cases control with
  | eval _ _ => rfl
  | enter _ _ _ _ => rfl
  | done outcome =>
      cases pending with
      | nil => simp [step]
      | cons _ _ => rfl

/-- **Invariants of a run.**  What holds at the beginning and is preserved by
every step holds of the configuration in which the run ends. -/
theorem run_invariant {P : Config → Prop} (hstep : ∀ c, P c → P c.step) {n : Nat} {c : Config}
    {outcome : Outcome} {s : State} (h : P c) (hrun : run n c = some (outcome, s)) :
    P ⟨.done outcome, [], s⟩ := by
  fun_induction run n c with
  | case1 => simp_all
  | case2 => simp at hrun
  | case3 n c _ ih => exact ih (hstep c h) hrun

end Config

end LexLisp
