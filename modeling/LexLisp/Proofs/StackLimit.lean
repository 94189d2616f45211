import LexLisp.Proofs.Lockstep
import LexLisp.Proofs.StackDiscipline

/-!
# What a limit on the call stack changes

A limit on the height of the call stack is looked at in one place, where a frame
is pushed.  So an evaluation under a limit goes in lockstep with the evaluation
without one, up to the first call for which there is no room (`Lockstep.limited`).
From there on its overflow passes all pending work by.

Whether it comes to that can be read off the log of the evaluation without a
limit: it does exactly if a call in it was made at a greater height than the
limit (`Interpreter.stack_limit_only_cuts`).
-/

namespace LexLisp

namespace CallStack

/-- The call stack with another greatest height. -/
def withLimit (m : Int) (st : CallStack) : CallStack := { st with maxHeight := m }

@[simp] theorem height_withLimit (m : Int) (st : CallStack) :
    (st.withLimit m).height = st.height := rfl

theorem isFull_of_unlimited {st : CallStack} (h : st.maxHeight ≤ 0) : st.isFull = false := by
  have hnot : ¬ 0 < st.maxHeight := by omega
  simp [isFull, hnot]

/-- A call stack with a limit is full from the limit on. -/
theorem isFull_of_limited {st : CallStack} {m : Nat} (hm : 0 < m) (h : st.maxHeight = m) :
    st.isFull = decide (m ≤ st.height) := by
  simp [isFull, h, hm]

end CallStack

namespace Outcome

/-- The outcome with another greatest height in the copy of the call stack that an
error keeps. -/
def withLimit (m : Int) : Outcome → Outcome
  | failure (.error e) => failure (.error ⟨e.cause, e.stack.map (CallStack.withLimit m)⟩)
  | outcome => outcome

/-- The kind of the error that is the outcome. -/
def kind? : Outcome → Option ErrorKind
  | failure (.error e) => e.cause.kind?
  | _ => none

@[simp] theorem kind?_withLimit (m : Int) (outcome : Outcome) :
    (outcome.withLimit m).kind? = outcome.kind? := by
  cases outcome with
  | value v => rfl
  | failure f => cases f <;> rfl

end Outcome

/-- No plain error is an overflow. -/
theorem Cause.kind?_ne_of_isPlain {cause : Cause} (h : cause.isPlain = true) :
    cause.kind? ≠ some .stackOverflow := by
  obtain ⟨kind, hmem, hkind⟩ := cause.kind?_of_isPlain h
  rw [hkind]
  rintro ⟨⟩
  exact absurd hmem (by decide)

/-- The greatest height in a log of calls, 0 if there is none. -/
def peak (calls : Array Call) : Nat :=
  calls.toList.foldr (fun call h => max call.height h) 0

/-- The peak is above a height when some call is. -/
theorem lt_peak_iff {calls : Array Call} {m : Nat} :
    m < peak calls ↔ ∃ call ∈ calls, m < call.height := by
  obtain ⟨calls⟩ := calls
  induction calls with
  | nil => simp [peak]
  | cons call rest ih =>
      simp only [peak, List.foldr_cons, List.mem_toArray, List.mem_cons] at ih ⊢
      constructor
      · intro h
        by_cases hcall : m < call.height
        · exact ⟨call, Or.inl rfl, hcall⟩
        · obtain ⟨other, hmem, hlt⟩ := ih.mp (by omega)
          exact ⟨other, Or.inr hmem, hlt⟩
      · rintro ⟨other, rfl | hmem, hlt⟩
        · omega
        · have hrest := ih.mpr ⟨other, hmem, hlt⟩
          omega

/-- The same state, but for the greatest height of the call stack. -/
def Lockstep.limited (m : Int) : Lockstep where
  home _ _ := True
  rel s s' := s' = { s with stack := s.stack.withLimit m }
  copy st st' := st' = st.withLimit m
  stack := by
    rintro s s' rfl
    rfl
  height := by
    rintro s s' rfl
    rfl
  size := by
    rintro s s' rfl
    rfl
  lookup := by
    rintro s s' env rfl - name
    rfl
  define := by
    rintro s s' env rfl - name v
    rfl
  create := by
    rintro s s' env rfl - captured bindings
    rfl
  pushFrame := by
    rintro s s' rfl env frame
    rfl
  pop := by
    rintro s s' rfl
    rfl

/-- Outcomes that are the same up to the limit differ only in the limit of the stack they
hold. -/
theorem Outcome.eq_withLimit {m : Int} {outcome outcome' : Outcome}
    (h : outcome.SameUpTo (Lockstep.limited m).copy outcome') : outcome' = outcome.withLimit m := by
  cases h with
  | value v => rfl
  | panic p => rfl
  | error cause hcopy =>
      obtain rfl := hcopy
      rfl

/-- A call that finds room is logged. -/
theorem Machine.calls_enter {env : EnvId} {k : List Pending} {s : State}
    (hroom : s.stack.isFull = false) (name : Text) (callee : Callee) (args : List Value) :
    (Machine.enter env name callee args k s).state.calls =
      s.calls.push ⟨⟨name, callee.isClosure⟩, env, s.stack.height + 1⟩ := by
  rw [Machine.enter, if_neg (by simp [hroom])]
  cases callee with
  | native f =>
      have hstate := (Machine.perform_goesOn env (.leave :: k)
        (Machine.pushFrame env ⟨name, false⟩ s) f.primitive args).state
      exact congrArg State.calls hstate
  | closure formals body captured =>
      simp only [Machine.runCallee]
      split
      · rfl
      · rfl

namespace Config

/-- The log only grows. -/
theorem mem_calls_step {c : Config} {call : Call} (h : call ∈ c.state.calls) :
    call ∈ c.step.state.calls := by
  cases c.step_effect with
  | quiet hstate hwork =>
      rw [hstate]
      exact h
  | define env name v henv hstate hwork =>
      rw [hstate]
      exact h
  | callNative env name henv hroom hstate hdepth henvs =>
      rw [hstate]
      exact Array.mem_push_of_mem _ h
  | callClosure env name captured bindings henv hroom hstate hdepth henvs =>
      rw [hstate]
      exact Array.mem_push_of_mem _ h
  | leave hheight hstate hdepth henvs =>
      rw [hstate]
      exact h
  | stuck hheight hstate hdepth henvs =>
      rw [hstate]
      exact h

/-- Whatever has been logged is in the log when the run ends. -/
theorem mem_calls_of_run {c : Config} {call : Call} {n : Nat} {outcome : Outcome} {s : State}
    (h : call ∈ c.state.calls) (hrun : run n c = some (outcome, s)) : call ∈ s.calls :=
  run_invariant (P := fun d => call ∈ d.state.calls) (fun _ hd => mem_calls_step hd) h hrun

/-- Nothing has been pushed above the limit: the call stack is not higher than that,
or than it was at the beginning, and no call was logged above it. -/
structure KeepsLimit (m : Nat) (base : CallStack) (c : Config) : Prop where
  height : c.state.stack.height ≤ max m base.height
  calls : ∀ call ∈ c.state.calls, call.height ≤ m

variable {m : Nat} {base : CallStack} {c c' : Config}

/-- Under a limit, a frame is pushed only below it. -/
theorem KeepsLimit.step (h : KeepsLimit m base c) (hm : 0 < m)
    (hmax : c.state.stack.maxHeight = m) : KeepsLimit m base c.step := by
  -- What a call pushes and logs is within the limit.
  have hpush : ∀ {d : Config} (env : EnvId) (frame : Frame), c.state.stack.isFull = false →
      d.state.stack = c.state.stack.push frame →
      d.state.calls = (Machine.pushFrame env frame c.state).calls → KeepsLimit m base d := by
    intro d env frame hroom hstack hcalls
    have hlt : c.state.stack.height < m := by
      rw [CallStack.isFull_of_limited hm hmax] at hroom
      simpa using hroom
    refine ⟨?_, ?_⟩
    · rw [hstack, CallStack.height_push]
      omega
    · rw [hcalls]
      intro call hcall
      rcases Array.mem_push.mp hcall with hold | rfl
      · exact h.calls call hold
      · exact hlt
  cases c.step_effect with
  | quiet hstate hwork => exact ⟨hstate ▸ h.height, hstate ▸ h.calls⟩
  | define env name v henv hstate hwork =>
      refine ⟨?_, ?_⟩
      · rw [hstate]
        exact h.height
      · rw [hstate]
        exact h.calls
  | callNative env name henv hroom hstate hdepth henvs =>
      exact hpush env ⟨name, false⟩ hroom (by rw [hstate]; rfl) (by rw [hstate])
  | callClosure env name captured bindings henv hroom hstate hdepth henvs =>
      exact hpush env ⟨name, true⟩ hroom (by rw [hstate]; rfl) (by rw [hstate])
  | leave hheight hstate hdepth henvs =>
      refine ⟨?_, ?_⟩
      · rw [hstate]
        have hpop : c.state.stack.pop.height ≤ c.state.stack.height := by
          simp [CallStack.pop, CallStack.height]
        exact Nat.le_trans hpop h.height
      · rw [hstate]
        exact h.calls
  | stuck hheight hstate hdepth henvs => exact ⟨hstate ▸ h.height, hstate ▸ h.calls⟩

/-- A failure passes all pending work by. -/
theorem run_failure {f : Failure} {k : List Pending} {s : State}
    (h : Balanced base ⟨.done (.failure f), k, s⟩) :
    ∃ s', run k.length ⟨.done (.failure f), k, s⟩ = some (.failure f, s') := by
  induction k generalizing s with
  | nil => exact ⟨s, rfl⟩
  | cons p k ih =>
      have hnext := h.step
      rw [List.length_cons, run_succ]
      cases p with
      | leave =>
          have hheight : s.stack.height ≠ 0 := by
            have := h.height_pos (by simp [Pending.isLeave])
            exact Nat.ne_of_gt this
          have hstep : step ⟨.done (.failure f), .leave :: k, s⟩ =
              ⟨.done (.failure f), k, { s with stack := s.stack.pop }⟩ := by
            simp only [step, Machine.hand, Machine.leave, if_neg hheight]
          rw [hstep] at hnext ⊢
          exact ih hnext
      | _ => exact ih hnext

end Config

namespace Balanced

variable {base : CallStack} {c : Config}

/-- A run keeps the limit of its call stack. -/
theorem maxHeight_eq (h : Balanced base c) : c.state.stack.maxHeight = base.maxHeight := by
  obtain ⟨above, -, hstack⟩ := h
  rw [hstack]
  rfl

/-- A run never goes below the height it began at. -/
theorem height_le (h : Balanced base c) : base.height ≤ c.state.stack.height := by
  obtain ⟨above, -, hstack⟩ := h
  rw [hstack, CallStack.height_extend]
  omega

/-- The same frames under another limit are as balanced. -/
theorem withLimit (h : Balanced base c) {m : Int} {c' : Config} (hdepth : c'.depth = c.depth)
    (hstack : c'.state.stack = c.state.stack.withLimit m) : Balanced (base.withLimit m) c' := by
  obtain ⟨above, hsize, hc⟩ := h
  refine ⟨above, hsize.trans hdepth.symm, ?_⟩
  rw [hstack, hc]
  rfl

end Balanced

namespace Config

variable {m n : Nat} {base : CallStack} {c c' : Config} {outcome : Outcome} {s : State}

/-- A call for which there is no room under the limit fails, and with it the whole
run.  Without a limit it is logged at a height above the limit. -/
theorem run_cut (hm : 0 < m) (hrel : (Lockstep.limited m).Related c c')
    (hbase : base.maxHeight ≤ 0) (hbalanced : Balanced base c) (hkeeps : KeepsLimit m base c')
    {env : EnvId} {name : Text} {callee : Callee} {args : List Value}
    (hcontrol : c.control = .enter env name callee args) (hhigh : m ≤ c.state.stack.height)
    (hrun : run n c.step = some (outcome, s)) :
    (∃ n' st s', run n' c' = some (.failure (.error ⟨.overflow m name, some st⟩), s') ∧
      st.height = max m base.height) ∧ ∃ call ∈ s.calls, m < call.height := by
  obtain ⟨control, k, t⟩ := c
  obtain ⟨control', k', t'⟩ := c'
  obtain ⟨hsame, hpending, hstate⟩ := hrel
  dsimp only at hcontrol hpending hstate hsame hhigh
  subst hcontrol hpending hstate
  cases hsame
  have hfullLimited : (t.stack.withLimit m).isFull = true := by
    rw [CallStack.isFull_of_limited hm rfl]
    exact decide_eq_true hhigh
  have hfree : t.stack.isFull = false :=
    CallStack.isFull_of_unlimited (Int.le_trans (Int.le_of_eq hbalanced.maxHeight_eq) hbase)
  constructor
  · -- Under the limit the call overflows, and the failure passes the pending work by.
    let t' : State := { t with stack := t.stack.withLimit m }
    have hstep : step ⟨.enter env name callee args, k', t'⟩ =
        Machine.fail (.overflow m name) k' t' := by
      simp only [step, Machine.enter, t', hfullLimited, if_true]
      rfl
    have hbalanced' : Balanced (base.withLimit m) (Machine.fail (.overflow m name) k' t') :=
      hbalanced.withLimit rfl rfl
    obtain ⟨s', hs'⟩ := run_failure hbalanced'
    refine ⟨k'.length + 1, t.stack.withLimit m, s', ?_, ?_⟩
    · rw [run_succ, hstep]
      exact hs'
    · have hle := hbalanced.height_le
      have hge := hkeeps.height
      dsimp only [CallStack.height_withLimit] at hle hge ⊢
      omega
  · -- Without it the call is logged.
    let call : Call := ⟨⟨name, callee.isClosure⟩, env, t.stack.height + 1⟩
    have hlogged : call ∈ (step ⟨.enter env name callee args, k', t⟩).state.calls := by
      have hcalls : (step ⟨.enter env name callee args, k', t⟩).state.calls = t.calls.push call :=
        Machine.calls_enter hfree name callee args
      rw [hcalls]
      exact Array.mem_push_self
    exact ⟨call, mem_calls_of_run hlogged hrun, Nat.lt_succ_of_le hhigh⟩

/-- **Runs under a limit.**  A run without a limit that returns also returns under
the limit `m`: with the same outcome, if all its calls are logged within the limit,
and else with an overflow, at a height that is `m` unless the call stack was higher at
the beginning. -/
theorem run_limited (hm : 0 < m) (hrel : (Lockstep.limited m).Related c c')
    (hbase : base.maxHeight ≤ 0) (hbalanced : Balanced base c) (hkeeps : KeepsLimit m base c')
    (hrun : run n c = some (outcome, s)) :
    (run n c' = some (outcome.withLimit m, { s with stack := s.stack.withLimit m }) ∧
      ∀ call ∈ s.calls, call.height ≤ m) ∨
    ((∃ n' name st s', run n' c' = some (.failure (.error ⟨.overflow m name, some st⟩), s') ∧
      st.height = max m base.height) ∧ ∃ call ∈ s.calls, m < call.height) := by
  induction n generalizing c c' with
  | zero =>
      left
      obtain ⟨control, k, t⟩ := c
      obtain ⟨control', k', t'⟩ := c'
      obtain ⟨hsame, hpending, hstate⟩ := hrel
      dsimp only at hsame hpending hstate
      subst hpending hstate
      cases hsame with
      | eval _ _ => cases hrun
      | enter _ _ _ _ => cases hrun
      | done hout =>
          cases k' with
          | cons _ _ => cases hrun
          | nil =>
              cases hrun
              obtain rfl := Outcome.eq_withLimit hout
              exact ⟨rfl, hkeeps.calls⟩
  | succ n ih =>
      rw [run_succ] at hrun
      by_cases hcut : ∃ env name callee args,
          c.control = .enter env name callee args ∧ m ≤ c.state.stack.height
      · obtain ⟨env, name, callee, args, hcontrol, hhigh⟩ := hcut
        obtain ⟨⟨n', st, s', hend, hheight⟩, hlogged⟩ :=
          run_cut hm hrel hbase hbalanced hkeeps hcontrol hhigh hrun
        exact Or.inr ⟨⟨n', name, st, s', hend, hheight⟩, hlogged⟩
      · -- There is room on both call stacks, so the runs stay in lockstep.
        have hstack : c'.state.stack = c.state.stack.withLimit m := congrArg State.stack hrel.state
        have hmax : c'.state.stack.maxHeight = m := by rw [hstack]; rfl
        have hstep : (Lockstep.limited m).Related c.step c'.step := by
          refine Lockstep.related_step hrel (fun _ _ => trivial) ?_
          intro env name callee args hcontrol
          have hfree : c.state.stack.isFull = false :=
            CallStack.isFull_of_unlimited (hbalanced.maxHeight_eq ▸ hbase)
          have hroom : c'.state.stack.isFull = false := by
            rw [CallStack.isFull_of_limited hm hmax, hstack]
            exact decide_eq_false fun hhigh => hcut ⟨env, name, callee, args, hcontrol, hhigh⟩
          exact ⟨hroom.trans hfree.symm, fun hfull => by simp [hfree] at hfull⟩
        rcases ih hstep hbalanced.step (hkeeps.step hm hmax) hrun with
          ⟨hend, hcalls⟩ | ⟨⟨n', name, st, s', hend, hheight⟩, hlogged⟩
        · exact Or.inl ⟨by rw [run_succ]; exact hend, hcalls⟩
        · exact Or.inr ⟨⟨n' + 1, name, st, s', by rw [run_succ]; exact hend, hheight⟩, hlogged⟩

/-- Where the height is not limited, no run ends with an overflow. -/
theorem kind?_of_run (hbase : base.maxHeight ≤ 0) (hbalanced : Balanced base c)
    (hstart : ∀ e, c.control ≠ .done (.failure (.error e))) (hrun : run n c = some (outcome, s)) :
    outcome.kind? ≠ some .stackOverflow := by
  have hend := run_invariant
    (P := fun d => Balanced base d ∧
      ∀ e, d.control = .done (.failure (.error e)) → e.cause.isPlain = true)
    (fun d hd => by
      refine ⟨hd.1.step, ?_⟩
      intro e he
      have hfree := CallStack.isFull_of_unlimited (hd.1.maxHeight_eq ▸ hbase)
      rcases step_error he with hbefore | ⟨-, hplain | ⟨hfull, -⟩⟩
      · exact hd.2 e hbefore
      · exact hplain
      · rw [hfree] at hfull
        cases hfull)
    ⟨hbalanced, fun e he => absurd he (hstart e)⟩ hrun
  cases outcome with
  | value v => simp [Outcome.kind?]
  | failure f =>
      cases f with
      | panic p => simp [Outcome.kind?]
      | error e => exact Cause.kind?_ne_of_isPlain (hend.2 e rfl)

end Config

namespace Interpreter

/-- The interpreter with another limit on the call stack of an environment's
session. -/
def withLimit (i : Interpreter) (e : EnvId) (m : Int) : Interpreter :=
  i.setStack e ((i.stackOf e).withLimit m)

/-- Where there is no limit, it can be set. -/
theorem state_withLimit {i : Interpreter} {e : EnvId} (h : (i.stackOf e).maxHeight ≤ 0) (m : Int) :
    (i.withLimit e m).state e = { i.state e with stack := (i.state e).stack.withLimit m } := by
  -- Without a session the call stack would be one of the default height.
  obtain ⟨session, hsession⟩ : ∃ session, i.session? e = some session := by
    cases hs : i.session? e with
    | some session => exact ⟨session, rfl⟩
    | none =>
        rw [stackOf, hs] at h
        exact absurd h (by decide)
  have hstack : (i.withLimit e m).stackOf e = (i.stackOf e).withLimit m := by
    have hlt := hsession
    rw [session?] at hlt
    simp only [stackOf, session?, withLimit, setStack, modifySession, Array.getElem?_modify,
      if_pos, hlt]
    rfl
  simp only [state, hstack]
  rfl

/-- **A limit on the call stack only cuts, at an exact point.**  Let an evaluation
without a limit return.  Under a limit of `m` frames it returns, too.  It ends with an
overflow exactly if a call in the log of the evaluation without a limit was made at a
greater height, and then the error has a copy of a call stack of `m` frames, or of as
many as there were at the beginning if these are more.  Else the outcome, the log and
all environments are the same, but for the limit itself in the copy of the call stack
that an error keeps. -/
theorem stack_limit_only_cuts {i : Interpreter} {e : EnvId} {expr : Value} {n : Nat}
    {ev : Evaluation} (hfree : (i.stackOf e).maxHeight ≤ 0) (h : i.eval e expr n = some ev)
    {m : Nat} (hm : 0 < m) :
    ∃ n' ev', (i.withLimit e m).eval e expr n' = some ev' ∧
      (ev'.outcome.kind? = some .stackOverflow ↔ m < peak ev.calls) ∧
      (peak ev.calls ≤ m → ev'.outcome = ev.outcome.withLimit m ∧ ev'.calls = ev.calls ∧
        ev'.interpreter.heap = ev.interpreter.heap) ∧
      (m < peak ev.calls → ∃ name st,
        ev'.outcome = .failure (.error ⟨.overflow m name, some st⟩) ∧
        st.height = max m (i.stackOf e).height) := by
  obtain ⟨outcome, s, hrun, rfl⟩ := run_eq_some_iff.mp h
  have hbalanced : Balanced (i.stackOf e) ⟨.eval e expr, [], i.state e⟩ :=
    (eval_goesOn e expr (i.state e)).balanced
  have hrel : (Lockstep.limited m).Related ⟨.eval e expr, [], i.state e⟩
      ⟨.eval e expr, [], (i.withLimit e m).state e⟩ :=
    ⟨.eval e expr, rfl, state_withLimit hfree m⟩
  have hkeeps : Config.KeepsLimit m (i.stackOf e)
      ⟨.eval e expr, [], (i.withLimit e m).state e⟩ := by
    refine ⟨?_, ?_⟩
    · rw [state_withLimit hfree m]
      exact Nat.le_max_right _ _
    · intro call hcall
      cases hcall with
      | mk hmem => cases hmem
  rcases Config.run_limited hm hrel hfree hbalanced hkeeps hrun with
    ⟨hend, hcalls⟩ | ⟨⟨n', name, st, s', hend, hheight⟩, hlogged⟩
  · have hlow : ¬ m < peak s.calls := by
      rw [lt_peak_iff]
      rintro ⟨call, hmem, hlt⟩
      exact absurd (hcalls call hmem) (Nat.not_le_of_gt hlt)
    have hkind := Config.kind?_of_run hfree hbalanced (by simp) hrun
    refine ⟨n, _, run_eq_some_iff.mpr ⟨_, _, hend, rfl⟩, ?_, ?_, ?_⟩
    · rw [Outcome.kind?_withLimit]
      exact ⟨fun hover => absurd hover hkind, fun hhigh => absurd hhigh hlow⟩
    · exact fun _ => ⟨rfl, rfl, rfl⟩
    · exact fun hhigh => absurd hhigh hlow
  · have hhigh : m < peak s.calls := lt_peak_iff.mpr hlogged
    refine ⟨n', _, run_eq_some_iff.mpr ⟨_, _, hend, rfl⟩, ?_, ?_, ?_⟩
    · exact ⟨fun _ => hhigh, fun _ => rfl⟩
    · exact fun hlow => absurd hhigh (Nat.not_lt_of_ge hlow)
    · exact fun _ => ⟨name, st, rfl, hheight⟩

/-- A call within a call has no room under a limit of one frame. -/
theorem nested_call_is_cut :
    ∃ i ev expr, i = (empty.newUser [.maxHeight 0]).2 ∧
      expr = .list [.list [.symbol "fn", .list [], .list [.symbol "+"]]] ∧
      (i.stackOf 0).maxHeight ≤ 0 ∧ i.eval 0 expr 100 = some ev ∧ peak ev.calls = 2 ∧
      ∃ n' ev', (i.withLimit 0 1).eval 0 expr n' = some ev' ∧
        ev'.outcome.kind? = some .stackOverflow ∧
        ∃ name st, ev'.outcome = .failure (.error ⟨.overflow 1 name, some st⟩) ∧ st.height = 1 := by
  have hpeak : ((empty.newUser [.maxHeight 0]).2.eval 0
      (.list [.list [.symbol "fn", .list [], .list [.symbol "+"]]]) 100).map
        (fun ev => peak ev.calls) = some 2 := by decide +kernel
  obtain ⟨ev, hev, hcalls⟩ := Option.map_eq_some_iff.mp hpeak
  have hfree : ((empty.newUser [.maxHeight 0]).2.stackOf 0).maxHeight ≤ 0 := by decide +kernel
  obtain ⟨n', ev', hev', hiff, -, hcut⟩ := stack_limit_only_cuts hfree hev (m := 1) (by decide)
  have hhigh : 1 < peak ev.calls := by omega
  obtain ⟨name, st, hout, hheight⟩ := hcut hhigh
  refine ⟨_, ev, _, rfl, rfl, hfree, hev, hcalls, n', ev', hev', hiff.mpr hhigh, name, st, hout, ?_⟩
  rw [hheight]
  decide +kernel

end Interpreter

end LexLisp
