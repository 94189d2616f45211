import LexLisp.Proofs.WriteFrame

/-!
# Stack discipline

While a call is open the call stack has its frame, and the pending work has the
mark that will pop it.  So at every moment the call stack is the one the
evaluation began with and one frame for each mark (`Balanced`), and when nothing
is pending it is the initial one again, whatever the outcome.

All work is done in environments of one session (`Machine.InSession`): a closure
runs in the session of its caller, not in that of the environment it captured.
No other call stack is ever in play.
-/

namespace LexLisp

namespace CallStack

/-- The call stack with further frames on top, the latest one last. -/
def extend (base : CallStack) (above : Array Frame) : CallStack :=
  { base with frames := base.frames ++ above }

variable (base : CallStack)

@[simp] theorem extend_empty : base.extend #[] = base := by
  simp [extend]

/-- Each frame added raises the stack by one. -/
theorem height_extend (above : Array Frame) :
    (base.extend above).height = base.height + above.size := by
  simp [extend, height]

theorem push_extend (above : Array Frame) (f : Frame) :
    (base.extend above).push f = base.extend (above.push f) := by
  simp [extend, push]

theorem pop_extend {above : Array Frame} (hne : above ≠ #[]) :
    (base.extend above).pop = base.extend above.pop := by
  simp [extend, pop, hne]

end CallStack

/-- The call stack is `base` and one frame for every call that is to be
left. -/
def Balanced (base : CallStack) (c : Config) : Prop :=
  ∃ above : Array Frame, above.size = c.depth ∧ c.state.stack = base.extend above

namespace Balanced

variable {base : CallStack} {c : Config}

/-- A configuration with a call to be left is not stuck. -/
theorem height_pos (h : Balanced base c) (hdepth : 0 < c.depth) : 0 < c.state.stack.height := by
  obtain ⟨above, hsize, hstack⟩ := h
  rw [hstack, CallStack.height_extend]
  omega

/-- A call pushes its frame and leaves the mark to pop it. -/
theorem push (h : Balanced base c) {d : Config} {f : Frame}
    (hstack : d.state.stack = c.state.stack.push f) (hdepth : d.depth = c.depth + 1) :
    Balanced base d := by
  obtain ⟨above, hsize, hc⟩ := h
  refine ⟨above.push f, ?_, ?_⟩
  · rw [Array.size_push, hsize, hdepth]
  · rw [hstack, hc, CallStack.push_extend]

/-- Every step keeps the balance. -/
theorem step (h : Balanced base c) : Balanced base c.step := by
  cases c.step_effect with
  | quiet hstate hwork =>
      obtain ⟨above, hsize, hstack⟩ := h
      exact ⟨above, hsize.trans hwork.depth.symm, hstate ▸ hstack⟩
  | define env name v henv hstate hwork =>
      obtain ⟨above, hsize, hstack⟩ := h
      refine ⟨above, hsize.trans hwork.depth.symm, ?_⟩
      rw [hstate]
      exact hstack
  | callNative env name henv hroom hstate hdepth henvs =>
      exact h.push (f := ⟨name, false⟩) (by rw [hstate]; rfl) hdepth
  | callClosure env name captured bindings henv hroom hstate hdepth henvs =>
      exact h.push (f := ⟨name, true⟩) (by rw [hstate]; rfl) hdepth
  | leave hheight hstate hdepth henvs =>
      obtain ⟨above, hsize, hstack⟩ := h
      have hne : above ≠ #[] := by
        rintro rfl
        simp at hsize
        omega
      refine ⟨above.pop, ?_, ?_⟩
      · rw [Array.size_pop]
        omega
      · rw [hstate, hstack]
        exact CallStack.pop_extend base hne
  | stuck hheight hstate hdepth henvs =>
      have := h.height_pos (by omega)
      omega

/-- When nothing is pending, the call stack is the initial one. -/
theorem stack_eq {outcome : Outcome} {s : State} (h : Balanced base ⟨.done outcome, [], s⟩) :
    s.stack = base := by
  obtain ⟨above, hsize, hstack⟩ := h
  have habove : above = #[] := Array.eq_empty_of_size_eq_zero (by simpa using hsize)
  rw [habove, CallStack.extend_empty] at hstack
  exact hstack

end Balanced

/-- Where no call is pending the stack is as it was. -/
theorem Machine.GoesOn.balanced {e : EnvId} {s : State} {c : Config}
    (h : Machine.GoesOn e [] s c) : Balanced s.stack c := by
  refine ⟨#[], ?_, ?_⟩
  · rw [h.depth]
    rfl
  · rw [h.state, CallStack.extend_empty]

namespace Heap

/-- An existing environment of the session `sid`. -/
def Hosts (h : Heap) (sid : SessionId) (a : EnvId) : Prop :=
  a < h.size ∧ h.sessionOf a = sid

variable {h : Heap} {sid : SessionId} {a : EnvId}

/-- A new environment leaves those a session hosts. -/
theorem Hosts.push (ha : h.Hosts sid a) (env : Environment) : Hosts (h.push env) sid a := by
  refine ⟨?_, ?_⟩
  · rw [Array.size_push]
    exact Nat.lt_succ_of_lt ha.1
  · rw [sessionOf_push_of_ne h env (Nat.ne_of_lt ha.1)]
    exact ha.2

/-- A definition leaves those a session hosts. -/
theorem Hosts.define (ha : h.Hosts sid a) (e : EnvId) (name : Text) (v : Value) :
    (h.define e name v).Hosts sid a := by
  simpa [Hosts] using ha

/-- A new environment is in the session it is created for. -/
theorem hosts_push_self (parent : Option EnvId) (bindings : Bindings) :
    Hosts (h.push ⟨parent, sid, bindings⟩) sid h.size := by
  refine ⟨?_, sessionOf_push_self h _⟩
  rw [Array.size_push]
  exact Nat.lt_succ_self _

end Heap

namespace Machine

/-- All work is done in environments of the session `sid`, and all calls were
made from such. -/
structure InSession (sid : SessionId) (c : Config) : Prop where
  envs : ∀ a ∈ c.envs, c.state.heap.Hosts sid a
  calls : ∀ call ∈ c.state.calls, c.state.heap.Hosts sid call.env

variable {sid : SessionId} {c d : Config}

/-- Nothing changes as long as heap and log stay the same. -/
theorem InSession.of_same_heap (h : InSession sid c) (hheap : d.state.heap = c.state.heap)
    (hcalls : d.state.calls = c.state.calls) (henvs : d.envs ⊆ c.envs) : InSession sid d := by
  refine ⟨?_, ?_⟩
  · rw [hheap]
    exact fun a ha => h.envs a (henvs ha)
  · rw [hheap, hcalls]
    exact h.calls

/-- A call is logged for the environment it is made from. -/
theorem InSession.logged (h : InSession sid c) {env : EnvId} (henv : env ∈ c.envs)
    (frame : Frame) : ∀ call ∈ (pushFrame env frame c.state).calls,
      c.state.heap.Hosts sid call.env := by
  intro call hcall
  rcases Array.mem_push.mp hcall with hold | rfl
  · exact h.calls call hold
  · exact h.envs env henv

/-- No step takes the work to another session. -/
theorem InSession.step (h : InSession sid c) : InSession sid c.step := by
  cases c.step_effect with
  | quiet hstate hwork => exact h.of_same_heap (by rw [hstate]) (by rw [hstate]) hwork.envs
  | define env name v henv hstate hwork =>
      refine ⟨?_, ?_⟩
      · rw [hstate]
        exact fun a ha => (h.envs a (hwork.envs ha)).define env name v
      · rw [hstate]
        exact fun call hcall => (h.calls call hcall).define env name v
  | callNative env name henv hroom hstate hdepth henvs =>
      refine ⟨?_, ?_⟩
      · rw [hstate]
        exact fun a ha => h.envs a (henvs ha)
      · rw [hstate]
        exact h.logged henv _
  | callClosure env name captured bindings henv hroom hstate hdepth henvs =>
      refine ⟨?_, ?_⟩
      · rw [hstate]
        intro a ha
        rcases List.mem_cons.mp (henvs ha) with rfl | hold
        · rw [(h.envs env henv).2]
          exact Heap.hosts_push_self captured bindings
        · exact (h.envs a hold).push _
      · rw [hstate]
        exact fun call hcall => (h.logged henv _ call hcall).push _
  | leave hheight hstate hdepth henvs => exact h.of_same_heap (by rw [hstate]) (by rw [hstate]) henvs
  | stuck hheight hstate hdepth henvs => exact h.of_same_heap (by rw [hstate]) (by rw [hstate]) henvs

/-- All environments from `start` on are of the session at work. -/
structure CreatesIn (start : Nat) (sid : SessionId) (c : Config) : Prop where
  inSession : InSession sid c
  created : ∀ a, start ≤ a → a < c.state.heap.size → c.state.heap.sessionOf a = sid

/-- No step creates an environment for another session. -/
theorem CreatesIn.step {start : Nat} {sid : SessionId} {c : Config} (h : CreatesIn start sid c) :
    CreatesIn start sid c.step := by
  refine ⟨h.inSession.step, ?_⟩
  cases c.step_effect with
  | quiet hstate hwork => exact hstate ▸ h.created
  | define env name v henv hstate hwork =>
      rw [hstate]
      simpa using h.created
  | callNative env name henv hroom hstate hdepth henvs =>
      rw [hstate]
      exact h.created
  | callClosure env name captured bindings henv hroom hstate hdepth henvs =>
      rw [hstate]
      intro a hstart ha
      by_cases hnew : a = c.state.heap.size
      · rw [hnew]
        exact (Heap.sessionOf_push_self c.state.heap _).trans (h.inSession.envs env henv).2
      · have hle : a < c.state.heap.size + 1 := by simpa [pushFrame] using ha
        have hold : a < c.state.heap.size := by omega
        exact (Heap.sessionOf_push_of_ne c.state.heap _ hnew).trans (h.created a hstart hold)
  | leave hheight hstate hdepth henvs =>
      rw [hstate]
      exact h.created
  | stuck hheight hstate hdepth henvs => exact hstate ▸ h.created

/-- A beginning in `e` is in the session of `e`. -/
theorem GoesOn.inSession {e : EnvId} {s : State} (h : GoesOn e [] s c) (he : e < s.heap.size)
    (hcalls : s.calls = #[]) : InSession (s.heap.sessionOf e) c := by
  refine ⟨?_, ?_⟩
  · rw [h.state]
    intro a ha
    have hae : a = e := by simpa using h.envs ha
    subst hae
    exact ⟨he, rfl⟩
  · rw [h.state, hcalls]
    intro call hcall
    simp at hcall

end Machine

namespace Interpreter

variable {i : Interpreter} {e : EnvId} {start : State → Config} {n : Nat} {ev : Evaluation}

/-- Whatever is begun in `e` ends with the call stack it began with. -/
theorem run_stack_eq (hstart : ∀ s, Machine.GoesOn e [] s (start s)) {outcome : Outcome}
    {s : State} (h : (start (i.state e)).run n = some (outcome, s)) : s.stack = i.stackOf e := by
  have hbegin : Balanced (i.stackOf e) (start (i.state e)) := (hstart (i.state e)).balanced
  exact (Config.run_invariant (fun c hc => Balanced.step hc) hbegin h).stack_eq

/-- To put a call stack back that has not changed is to change nothing. -/
theorem setStack_stackOf (i : Interpreter) (e : EnvId) : i.setStack e (i.stackOf e) = i := by
  have hsessions : (i.setStack e (i.stackOf e)).sessions = i.sessions := by
    apply Array.ext_getElem?
    intro j
    simp only [setStack, modifySession, Array.getElem?_modify]
    split
    · rename_i hj
      subst hj
      cases hs : i.sessions[i.heap.sessionOf e]? with
      | none => rfl
      | some session => simp [stackOf, session?, hs]
    · rfl
  exact congrArg (Interpreter.mk i.heap) hsessions

/-- Whatever is begun in `e` leaves all sessions as they were. -/
theorem run_sessions_eq (hstart : ∀ s, Machine.GoesOn e [] s (start s))
    (h : i.run e start n = some ev) : ev.interpreter.sessions = i.sessions := by
  obtain ⟨outcome, s, hrun, rfl⟩ := run_eq_some_iff.mp h
  have hstack := run_stack_eq hstart hrun
  show (i.setStack e s.stack).sessions = i.sessions
  rw [hstack, setStack_stackOf]

/-- Whatever is begun in `e` makes its calls in the session of `e`. -/
theorem run_calls_in_session (hstart : ∀ s, Machine.GoesOn e [] s (start s)) (he : e < i.heap.size)
    (h : i.run e start n = some ev) :
    ∀ call ∈ ev.calls, ev.interpreter.heap.Hosts (i.heap.sessionOf e) call.env := by
  obtain ⟨outcome, s, hrun, rfl⟩ := run_eq_some_iff.mp h
  have hbegin : Machine.InSession (i.heap.sessionOf e) (start (i.state e)) :=
    (hstart (i.state e)).inSession he rfl
  exact (Config.run_invariant (fun c hc => Machine.InSession.step hc) hbegin hrun).calls

/-- What is created by work in `e` is in the session of `e`. -/
theorem run_created {start : State → Config} (hstart : ∀ s, Machine.GoesOn e [] s (start s))
    (he : e < i.heap.size) (h : i.run e start n = some ev) (a : EnvId) (hold : i.heap.size ≤ a)
    (ha : a < ev.interpreter.heap.size) :
    ev.interpreter.heap.sessionOf a = i.heap.sessionOf e := by
  obtain ⟨outcome, s, hrun, rfl⟩ := run_eq_some_iff.mp h
  have hbegin : Machine.CreatesIn i.heap.size (i.heap.sessionOf e) (start (i.state e)) := by
    refine ⟨(hstart (i.state e)).inSession he rfl, ?_⟩
    rw [(hstart (i.state e)).state]
    intro b hb hlt
    exact absurd hlt (Nat.not_lt_of_le hb)
  exact (Config.run_invariant (fun c hc => Machine.CreatesIn.step hc) hbegin hrun).created a hold ha

/-- The three ways to begin: with an expression, with a call given as a list,
and with a function and its arguments. -/
theorem exists_start {expr f args : Value}
    (h : i.eval e expr n = some ev ∨ i.evalForm e expr n = some ev ∨
      i.call e f args n = some ev) :
    ∃ start : State → Config, (∀ s, Machine.GoesOn e [] s (start s)) ∧
      i.run e start n = some ev := by
  rcases h with heval | hform | hcall
  · exact ⟨_, eval_goesOn e expr, heval⟩
  · unfold evalForm at hform
    split at hform
    · exact ⟨_, eval_goesOn e _, hform⟩
    · exact ⟨_, fun s => Machine.refuse_goesOn e [] s _, hform⟩
  · exact ⟨_, fun s => Machine.callValue_goesOn e [] s f args, hcall⟩

/-- **Stack discipline.**  Whenever the evaluation of an expression or of a
call form, or the call of a function, returns in the environment `e`, by
whatever outcome, every session has the call stack it had, frame by frame and
with the same greatest height.  Every environment is still in its session, and
the frames that were pushed meanwhile were all for calls made from environments
of the session of `e`. -/
theorem evaluation_restores_call_stacks {expr : Value} (f args : Value) (he : e < i.heap.size)
    (h : i.eval e expr n = some ev ∨ i.evalForm e expr n = some ev ∨
      i.call e f args n = some ev) :
    ev.interpreter.sessions = i.sessions ∧
    (∀ a < i.heap.size, ev.interpreter.stackOf a = i.stackOf a) ∧
    (∀ call ∈ ev.calls, ev.interpreter.heap.sessionOf call.env = i.heap.sessionOf e) := by
  obtain ⟨start, hstart, hrun⟩ := exists_start h
  have hsessions := run_sessions_eq hstart hrun
  refine ⟨hsessions, ?_, ?_⟩
  · intro a ha
    have hsession := (run_evolves hstart hrun).session a ha
    simp only [stackOf, session?, hsessions, hsession]
  · exact fun call hcall => (run_calls_in_session hstart he hrun call hcall).2

/-- A closure of another session that calls itself overflows the call stack of
the session it is called in. -/
theorem overflow_restores_call_stacks :
    ∃ i ev, i = ((empty.newUser [.maxHeight 3]).2.define 0 "f"
        (.closure [] (.list [.symbol "f"]) (some 0))).fork 0 ∧
      1 < i.heap.size ∧ i.eval 1 (.list [.symbol "f"]) 100 = some ev ∧
      ev.interpreter.sessions = i.sessions ∧
      (∀ a < i.heap.size, ev.interpreter.stackOf a = i.stackOf a) ∧
      (∀ call ∈ ev.calls, ev.interpreter.heap.sessionOf call.env = i.heap.sessionOf 1) := by
  obtain ⟨ev, hev⟩ := Option.isSome_iff_exists.mp (show (Interpreter.eval
    (((empty.newUser [.maxHeight 3]).2.define 0 "f"
      (.closure [] (.list [.symbol "f"]) (some 0))).fork 0) 1
    (.list [.symbol "f"]) 100).isSome by decide +kernel)
  refine ⟨_, ev, rfl, by decide +kernel, hev, ?_⟩
  exact evaluation_restores_call_stacks .absent .absent (by decide +kernel) (Or.inl hev)

end Interpreter

end LexLisp
