import LexLisp.Proofs.StackLimit
import LexLisp.Proofs.Termination

/-!
# The log of calls and the call stack of an error

A call is logged when its frame is pushed, with the height that the call stack then has.
So the log goes up by single steps and comes down by any number of them (`Climbs`), and the
call stack can be read off it at any moment: the frame at a height is that of the last call
logged at this height (`Tells`).

An error keeps a copy of the call stack of the moment it is raised.  From then on no call is
made, so that the log still tells of the copy when the evaluation ends
(`Interpreter.log_tells_error_stack`).
-/

namespace LexLisp

namespace Call

/-- The last call that was logged at a height. -/
def lastAt (calls : Array Call) (height : Nat) : Option Call :=
  calls.toList.reverse.find? (·.height = height)

/-- The height of the last call that was logged, 0 if there is none. -/
def lastHeight (calls : Array Call) : Nat :=
  (calls.back?.map height).getD 0

@[simp] theorem lastHeight_push (calls : Array Call) (call : Call) :
    lastHeight (calls.push call) = call.height := by
  simp [lastHeight]

/-- A call just logged is the last at its height. -/
theorem lastAt_push_self (calls : Array Call) (call : Call) :
    lastAt (calls.push call) call.height = some call := by
  simp [lastAt]

/-- A call just logged leaves the last ones at other heights. -/
theorem lastAt_push_of_ne (calls : Array Call) {call : Call} {j : Nat} (hne : call.height ≠ j) :
    lastAt (calls.push call) j = lastAt calls j := by
  simp [lastAt, hne]

/-- The heights in the log of an evaluation that began at the height `base`: the first call
is made right above it and all are made above it, none more than one above the call
before. -/
structure Climbs (base : Nat) (calls : Array Call) : Prop where
  first : ∀ call ∈ calls[0]?, call.height = base + 1
  above : ∀ call ∈ calls, base + 1 ≤ call.height
  next : ∀ k, ∀ call ∈ calls[k]?, ∀ after ∈ calls[k + 1]?, after.height ≤ call.height + 1

theorem climbs_empty (base : Nat) : Climbs base #[] :=
  ⟨by simp, by simp, by simp⟩

/-- The log goes on with a call above the height `base` that is at most one higher than the
last one. -/
theorem Climbs.push {base : Nat} {calls : Array Call} (h : Climbs base calls) {call : Call}
    (habove : base + 1 ≤ call.height) (hnext : call.height ≤ max base (lastHeight calls) + 1) :
    Climbs base (calls.push call) := by
  refine ⟨?_, ?_, ?_⟩
  · intro first hfirst
    rw [Array.getElem?_push] at hfirst
    split at hfirst
    · rename_i hsize
      cases hfirst
      have hlast : lastHeight calls = 0 := by
        rw [Array.eq_empty_of_size_eq_zero hsize.symm]
        rfl
      omega
    · exact h.first first hfirst
  · intro other hother
    rcases Array.mem_push.mp hother with hold | rfl
    · exact h.above other hold
    · exact habove
  · intro k before hbefore after hafter
    rw [Array.getElem?_push] at hbefore hafter
    split at hafter
    · -- The call before the new one is the last one of the log.
      rename_i hk
      cases hafter
      rw [if_neg (by omega)] at hbefore
      have hlast : lastHeight calls = before.height := by
        have hback : calls.back? = some before := by
          rw [Array.back?_eq_getElem?, ← hk]
          exact hbefore
        rw [lastHeight, hback]
        rfl
      have hbase := h.above before (Array.mem_of_getElem? hbefore)
      omega
    · split at hbefore
      · rename_i hk
        rw [hk, Array.getElem?_eq_none (Nat.le_succ _)] at hafter
        cases hafter
      · exact h.next k before hbefore after hafter

end Call

/-- The log tells of the call stack `st`, where the evaluation began with the call stack
`base`: above `base` there are frames of calls that were logged, and at each height it is the
last call that was logged at this height. -/
structure Tells (base : CallStack) (calls : Array Call) (st : CallStack) : Prop where
  extends_base : ∃ above, st = base.extend above
  height : st.height ≤ max base.height (Call.lastHeight calls)
  frame : ∀ j, base.height < j → j ≤ st.height →
    ∃ call, Call.lastAt calls j = some call ∧ st.frames[j - 1]? = some call.frame

namespace Tells

variable {base st : CallStack} {calls : Array Call}

/-- A log tells of the stack the evaluation began with. -/
theorem refl (base : CallStack) (calls : Array Call) : Tells base calls base := by
  refine ⟨⟨#[], (base.extend_empty).symm⟩, Nat.le_max_left _ _, ?_⟩
  intro j hlt hle
  omega

theorem base_le (h : Tells base calls st) : base.height ≤ st.height := by
  obtain ⟨above, rfl⟩ := h.extends_base
  rw [CallStack.height_extend]
  omega

/-- A call is logged with its frame. -/
theorem push (h : Tells base calls st) (env : EnvId) (f : Frame) :
    Tells base (calls.push ⟨f, env, st.height + 1⟩) (st.push f) := by
  refine ⟨?_, ?_, ?_⟩
  · obtain ⟨above, rfl⟩ := h.extends_base
    exact ⟨above.push f, CallStack.push_extend base above f⟩
  · rw [CallStack.height_push, Call.lastHeight_push]
    exact Nat.le_max_right _ _
  · intro j hlt hle
    rw [CallStack.height_push] at hle
    have hframes : (st.push f).frames[j - 1]? =
        if j - 1 = st.height then some f else st.frames[j - 1]? := Array.getElem?_push
    by_cases hj : j = st.height + 1
    · subst hj
      exact ⟨_, Call.lastAt_push_self calls ⟨f, env, st.height + 1⟩, by
        rw [hframes, if_pos (Nat.add_sub_cancel _ _)]⟩
    · obtain ⟨call, hcall, hframe⟩ := h.frame j hlt (by omega)
      refine ⟨call, ?_, ?_⟩
      · rw [Call.lastAt_push_of_ne calls (by exact Ne.symm hj)]
        exact hcall
      · rw [hframes, if_neg (by omega)]
        exact hframe

/-- To leave a call is to forget its frame; the log stays. -/
theorem pop (h : Tells base calls st) (hextends : ∃ above, st.pop = base.extend above) :
    Tells base calls st.pop := by
  have hheight : st.pop.height = st.height - 1 := Array.size_pop
  refine ⟨hextends, ?_, ?_⟩
  · have hle := h.height
    omega
  · intro j hlt hle
    obtain ⟨call, hcall, hframe⟩ := h.frame j hlt (by omega)
    refine ⟨call, hcall, ?_⟩
    have hsame : st.pop.frames[j - 1]? = st.frames[j - 1]? := by
      have hin : j - 1 < st.frames.size - 1 := by
        have hsize : st.height = st.frames.size := rfl
        omega
      show st.frames.pop[j - 1]? = st.frames[j - 1]?
      rw [Array.getElem?_pop, if_pos hin]
    rw [hsame]
    exact hframe

end Tells

/-- The log so far, where the evaluation began with the call stack `base`: it climbs, and it
tells of the call stack as it is and of the copy that an error at hand keeps. -/
structure Config.Logged (base : CallStack) (c : Config) : Prop where
  climbs : Call.Climbs base.height c.state.calls
  stack : Tells base c.state.calls c.state.stack
  error : ∀ err, c.control = .done (.failure (.error err)) →
    ∃ st, err.stack = some st ∧ Tells base c.state.calls st

namespace Config

variable {base : CallStack} {c : Config}

/-- Once there is a failure, no call is made. -/
theorem calls_step_of_failure {f : Failure} (h : c.control = .done (.failure f)) :
    c.step.state.calls = c.state.calls := by
  obtain ⟨control, k, s⟩ := c
  cases h
  cases k with
  | nil => rfl
  | cons p k =>
      cases p with
      | leave =>
          simp only [step, Machine.hand, Machine.leave]
          split
          · rfl
          · rfl
      | _ => rfl

/-- Every step keeps the log and the call stack together. -/
theorem Logged.state_step (h : c.Logged base) (hbalanced : Balanced base c) :
    Call.Climbs base.height c.step.state.calls ∧
      Tells base c.step.state.calls c.step.state.stack := by
  have hpush : ∀ env f, Call.Climbs base.height (Machine.pushFrame env f c.state).calls ∧
      Tells base (Machine.pushFrame env f c.state).calls (Machine.pushFrame env f c.state).stack := by
    intro env f
    have hbase := h.stack.base_le
    have hheight := h.stack.height
    refine ⟨h.climbs.push ?_ ?_, h.stack.push env f⟩
    · exact Nat.succ_le_succ hbase
    · exact Nat.succ_le_succ hheight
  cases c.step_effect with
  | quiet hstate hwork =>
      rw [hstate]
      exact ⟨h.climbs, h.stack⟩
  | define env name v henv hstate hwork =>
      rw [hstate]
      exact ⟨h.climbs, h.stack⟩
  | callNative env name henv hroom hstate hdepth henvs =>
      rw [hstate]
      exact hpush env ⟨name, false⟩
  | callClosure env name captured bindings henv hroom hstate hdepth henvs =>
      rw [hstate]
      exact hpush env ⟨name, true⟩
  | leave hheight hstate hdepth henvs =>
      obtain ⟨above, -, hstack⟩ := hbalanced.step
      rw [hstate] at hstack ⊢
      exact ⟨h.climbs, h.stack.pop ⟨above, hstack⟩⟩
  | stuck hheight hstate hdepth henvs =>
      rw [hstate]
      exact ⟨h.climbs, h.stack⟩

/-- **The log tells of errors.**  An error that is raised keeps the call stack of this moment,
and one that is at hand is followed by no call. -/
theorem Logged.step (h : c.Logged base) (hbalanced : Balanced base c) : c.step.Logged base := by
  obtain ⟨hclimbs, htells⟩ := h.state_step hbalanced
  refine ⟨hclimbs, htells, ?_⟩
  intro err herr
  rcases step_error herr with hbefore | ⟨hcopy, -⟩
  · rw [calls_step_of_failure hbefore]
    exact h.error err hbefore
  · exact ⟨_, hcopy, htells⟩

/-- A beginning has logged nothing, and fails only with a copy of the call stack it finds. -/
theorem logged_start {e : EnvId} {s : State} (h : Machine.GoesOn e [] s c) (hcalls : s.calls = #[])
    (herror : ∀ err, c.control = .done (.failure (.error err)) → err.stack = some s.stack) :
    c.Logged s.stack := by
  refine ⟨?_, ?_, ?_⟩
  · rw [h.state, hcalls]
    exact Call.climbs_empty _
  · rw [h.state]
    exact Tells.refl _ _
  · intro err herr
    exact ⟨s.stack, herror err herr, Tells.refl _ _⟩

end Config

namespace Interpreter

variable {i : Interpreter} {e : EnvId} {n : Nat} {ev : Evaluation}

/-- However an evaluation begins, its log climbs and tells of the call stack all along. -/
theorem logged_of_reaches {start : State → Config} (hstart : ∀ s, Machine.GoesOn e [] s (start s))
    (herror : ∀ s err, (start s).control = .done (.failure (.error err)) → err.stack = some s.stack)
    {c : Config} (hreach : Config.Reaches (start (i.state e)) c) : c.Logged (i.stackOf e) := by
  have hbegin : Balanced (i.stackOf e) (start (i.state e)) ∧
      (start (i.state e)).Logged (i.stackOf e) :=
    ⟨(hstart _).balanced, Config.logged_start (hstart (i.state e)) rfl (herror _)⟩
  exact (Config.Reaches.invariant
    (P := fun c => Balanced (i.stackOf e) c ∧ c.Logged (i.stackOf e))
    (fun c hc => ⟨hc.1.step, hc.2.step hc.1⟩) hbegin hreach).2

/-- However an evaluation begins, it logs no call above the limit. -/
theorem calls_le_limit_of_reaches {start : State → Config}
    (hstart : ∀ s, Machine.GoesOn e [] s (start s)) (hlimit : 0 < (i.stackOf e).maxHeight)
    {c : Config} (hreach : Config.Reaches (start (i.state e)) c) :
    ∀ call ∈ c.state.calls, (call.height : Int) ≤ (i.stackOf e).maxHeight := by
  obtain ⟨m, hm⟩ := Int.eq_ofNat_of_zero_le (Int.le_of_lt hlimit)
  have hpos : 0 < m := by omega
  have hbegin : Balanced (i.stackOf e) (start (i.state e)) ∧
      (start (i.state e)).KeepsLimit m (i.stackOf e) := by
    refine ⟨(hstart _).balanced, ?_, ?_⟩
    · rw [(hstart _).state]
      exact Nat.le_max_right _ _
    · rw [(hstart _).state]
      intro call hcall
      cases Array.not_mem_empty call hcall
  have hkeeps := (Config.Reaches.invariant
    (P := fun c => Balanced (i.stackOf e) c ∧ c.KeepsLimit m (i.stackOf e))
    (fun c hc => ⟨hc.1.step, hc.2.step hpos (hc.1.maxHeight_eq.trans hm)⟩) hbegin hreach).2
  intro call hcall
  have hle := hkeeps.calls call hcall
  omega

/-- To begin with a function and its arguments is not to fail but with a copy of the call
stack. -/
theorem callValue_error {e : EnvId} {f args : Value} (s : State) (err : Error)
    (h : (Machine.callValue e f args [] s).control = .done (.failure (.error err))) :
    err.stack = some s.stack := by
  rw [((Machine.callValue_alike s s e [] f args).error h).1,
    (Machine.callValue_goesOn e [] s f args).state]

/-- Nor is it to begin with an expression or with a call given as a list. -/
theorem exists_start_of_error {expr f args : Value}
    (h : i.eval e expr n = some ev ∨ i.evalForm e expr n = some ev ∨
      i.call e f args n = some ev) :
    ∃ start : State → Config, (∀ s, Machine.GoesOn e [] s (start s)) ∧
      (∀ s err, (start s).control = .done (.failure (.error err)) → err.stack = some s.stack) ∧
      i.run e start n = some ev := by
  rcases h with heval | hform | hcall
  · exact ⟨_, eval_goesOn e expr, fun _ _ herr => Control.noConfusion herr, heval⟩
  · unfold evalForm at hform
    split at hform
    · exact ⟨_, eval_goesOn e _, fun _ _ herr => Control.noConfusion herr, hform⟩
    · refine ⟨_, fun s => Machine.refuse_goesOn e [] s _, fun s err herr => ?_, hform⟩
      exact ((Machine.refuse_about_alike s s [] .notForm _ rfl).error herr).1
  · exact ⟨_, fun s => Machine.callValue_goesOn e [] s f args, callValue_error, hcall⟩

/-- **The log of calls and the call stack of an error tell the same story.**  Evaluate an
expression or a call form, or call a function, in the environment `e`.  The heights in the log
begin right above the height that the call stack of `e` has at the beginning, stay above it,
go up by one at most from one call to the next, and keep to the limit if there is one: so it
is at every moment, whether or not there is an end to it.  If it ends with an error, the error
has a copy of a call stack that begins with the initial frames, is not higher than these or
the last call in the log, and has above them, at each height, the frame of the last call that
was logged at this height. -/
theorem log_tells_error_stack (i : Interpreter) (e : EnvId) (expr f args : Value) :
    (∀ c, Config.Reaches ⟨.eval e expr, [], i.state e⟩ c ∨
        Config.Reaches (Machine.callValue e f args [] (i.state e)) c →
      Call.Climbs (i.stackOf e).height c.state.calls ∧
      (0 < (i.stackOf e).maxHeight →
        ∀ call ∈ c.state.calls, (call.height : Int) ≤ (i.stackOf e).maxHeight)) ∧
    ∀ n ev, (i.eval e expr n = some ev ∨ i.evalForm e expr n = some ev ∨
        i.call e f args n = some ev) →
      Call.Climbs (i.stackOf e).height ev.calls ∧
      (0 < (i.stackOf e).maxHeight →
        ∀ call ∈ ev.calls, (call.height : Int) ≤ (i.stackOf e).maxHeight) ∧
      ∀ err, ev.outcome = .failure (.error err) →
        ∃ st, err.stack = some st ∧ Tells (i.stackOf e) ev.calls st := by
  refine ⟨?_, ?_⟩
  · rintro c (hreach | hreach)
    · exact ⟨(logged_of_reaches (eval_goesOn e expr)
          (fun _ _ herr => Control.noConfusion herr) hreach).climbs,
        fun hlimit => calls_le_limit_of_reaches (eval_goesOn e expr) hlimit hreach⟩
    · have hgoesOn := fun s => Machine.callValue_goesOn e [] s f args
      exact ⟨(logged_of_reaches hgoesOn callValue_error hreach).climbs,
        fun hlimit => calls_le_limit_of_reaches hgoesOn hlimit hreach⟩
  · intro n ev h
    obtain ⟨start, hstart, herror, hrun⟩ := exists_start_of_error h
    obtain ⟨outcome, s, hend, rfl⟩ := run_eq_some_iff.mp hrun
    have hreach := Config.reaches_of_run hend
    have hlogged := logged_of_reaches hstart herror hreach
    refine ⟨hlogged.climbs, fun hlimit => calls_le_limit_of_reaches hstart hlimit hreach, ?_⟩
    intro err herr
    exact hlogged.error err (congrArg Control.done herr)

/-- Above a frame that was there before, a closure takes the first element of an empty
list.  The closure's frame is at the height at which its operand was logged before. -/
theorem error_in_closure_is_told :
    ∃ i ev err st, i = (empty.newUser [.maxHeight 5]).2.setStack 0 ⟨#[⟨"main", false⟩], 5⟩ ∧
      i.eval 0 (.list [.list [.symbol "fn", .list [.symbol "x"],
          .list [.symbol "first", .symbol "x"]], .list [.symbol "quote", .list []]]) 100 =
        some ev ∧
      ev.calls.map Call.height = #[2, 2, 2, 3] ∧
      ev.outcome = .failure (.error err) ∧ err.stack = some st ∧
      st.frames = #[⟨"main", false⟩, ⟨"<anonymous>", true⟩, ⟨"first", false⟩] ∧
      Call.Climbs (i.stackOf 0).height ev.calls ∧ Tells (i.stackOf 0) ev.calls st := by
  have hrun : (Interpreter.eval ((empty.newUser [.maxHeight 5]).2.setStack 0
      ⟨#[⟨"main", false⟩], 5⟩) 0 (.list [.list [.symbol "fn", .list [.symbol "x"],
        .list [.symbol "first", .symbol "x"]], .list [.symbol "quote", .list []]]) 100).map
      (fun ev => (ev.calls.map Call.height, match ev.outcome with
        | .failure f => f.stack?.map CallStack.frames
        | .value _ => none)) =
        some (#[2, 2, 2, 3],
          some #[⟨"main", false⟩, ⟨"<anonymous>", true⟩, ⟨"first", false⟩]) := by
    decide +kernel
  obtain ⟨ev, hev, hresult⟩ := Option.map_eq_some_iff.mp hrun
  obtain ⟨hheights, hframes⟩ := Prod.mk.inj hresult
  obtain ⟨hclimbs, -, htells⟩ := (log_tells_error_stack _ 0 _ .absent .absent).2 100 ev (Or.inl hev)
  cases hout : ev.outcome with
  | value v =>
      rw [hout] at hframes
      cases hframes
  | failure failure =>
      rw [hout] at hframes
      cases failure with
      | panic p => cases hframes
      | error err =>
          obtain ⟨st, hst, htold⟩ := htells err hout
          have hcopy : err.stack.map CallStack.frames = _ := hframes
          rw [hst] at hcopy
          exact ⟨_, ev, err, st, rfl, hev, hheights, hout, hst, Option.some.inj hcopy, hclimbs, htold⟩

end Interpreter

end LexLisp
