import LexLisp.Proofs.LexicalScope
import LexLisp.Proofs.SetUp
import LexLisp.Proofs.SourceTexts
import Mathlib.Data.List.TakeWhile

/-!
# The heap of environments

Environments refer to each other in two ways: by their parents and by the closures that they
bind.  The second way may lead in circles, the first never does, since a parent is older than
its children (`Heap.WellFormed`).  The step that could break this is the call of a closure,
whose environment is a child of the captured one; so what is captured must exist, in every
value that turns up.

* `HeapStep` lists what a step does to the heap, and `Heap.WellFormed.step` shows that it stays
  well-formed.
* `Config.created` collects the environments that a run creates.  They are numbered on
  (`Config.range_append_created`), one for each frame that is pushed for a closure
  (`Config.run_creates`).
* `Interpreter.Built` lists what can be done with an interpreter, and
  `Interpreter.Built.numbered` is the invariant of all that.
-/

namespace LexLisp

/-- With one more environment, the new one exists and those that existed before. -/
theorem Policy.exists_succ {n : Nat} {a : EnvId} (_ : 0 ≤ n) : a < n + 1 ↔ a = n ∨ a < n := by
  rw [Nat.lt_succ_iff_lt_or_eq, or_comm]

/-- Work in environments that exist, with closures over such. -/
def Policy.existing : Policy where
  since := 0
  home n a := a < n
  ok n := Value.ClosesOver (· < n)
  home_succ := @Policy.exists_succ
  ok_succ _ h := fun formals body a heq => Nat.lt_succ_of_lt (h formals body a heq)
  symbol _ _ := fun _ _ _ heq => Value.noConfusion heq
  number _ _ := fun _ _ _ heq => Value.noConfusion heq
  list _ _ := fun _ _ _ heq => Value.noConfusion heq
  closure _ _ h := by
    intro formals body a heq
    cases heq
    exact h
  captured h := h _ _ _ rfl

/-- Under this policy a value is allowed if all that it captures exists. -/
theorem Policy.good_existing {n : Nat} {v : Value} :
    Policy.existing.Good n v ↔ ∀ a, v.Captures a → a < n :=
  ⟨fun h _ ha => Value.closesOver_of_everywhere (D := (· < n)) h ha, Value.everywhere_closesOver⟩

/-- A datum has captured nothing. -/
theorem Value.IsDatum.not_captures {v : Value} (h : v.IsDatum) (a : EnvId) : ¬ v.Captures a := by
  intro ha
  exact Nat.not_lt_zero a (Policy.good_existing.mp (h.good .existing 0) a ha)

namespace Heap

/-- The environments of `h'` that are not in `h`. -/
def added (h h' : Heap) : List EnvId :=
  (List.range h'.size).filter fun a => h[a]?.isNone

/-- Environments are added after those that are there. -/
theorem range_append_added {h h' : Heap} (hle : h.size ≤ h'.size) :
    List.range h.size ++ h.added h' = List.range h'.size := by
  obtain ⟨k, hk⟩ := Nat.exists_eq_add_of_le hle
  have hold : (List.range h.size).filter (fun a => h[a]?.isNone) = [] := by
    apply List.filter_eq_nil_iff.mpr
    intro a ha
    simp [List.mem_range.mp ha]
  have hnew : ((List.range k).map (h.size + ·)).filter (fun a => h[a]?.isNone) =
      (List.range k).map (h.size + ·) := by
    apply List.filter_eq_self.mpr
    intro a ha
    obtain ⟨j, -, rfl⟩ := List.mem_map.mp ha
    simp
  rw [added, hk, List.range_add, List.filter_append, hold, hnew, List.nil_append]

/-- Parents are older than their children, closures are over environments that exist, and no
name is bound to an absent value. -/
structure WellFormed (h : Heap) : Prop where
  older : ∀ {a p : EnvId}, h.parent? a = some p → p < a
  present : ∀ {a : EnvId}, ∀ b ∈ h.bindings a, b.2.isAbsent = false
  existing : h.Obeys .existing

namespace WellFormed

variable {h : Heap}

/-- Where values are bound, environments exist. -/
theorem good (hh : h.WellFormed) {a : EnvId} {b : Text × Value} (hb : b ∈ h.bindings a) :
    Policy.existing.Good h.size b.2 := by
  by_cases ha : a < h.size
  · exact (hh.existing a ha).1 b hb
  · rw [bindings_of_size_le (Nat.le_of_not_lt ha)] at hb
    cases hb

theorem empty : WellFormed #[] where
  older hp := by cases hp
  present b hb := by cases hb
  existing a ha := absurd ha (Nat.not_lt_zero a)

/-- To bind a value that is present and closes over what exists keeps the heap well
formed. -/
theorem define (hh : h.WellFormed) (e : EnvId) (name : Text) {v : Value}
    (hv : v.isAbsent = false) (hgood : Policy.existing.Good h.size v) :
    (h.define e name v).WellFormed where
  older hp := hh.older (by rwa [parent?_define] at hp)
  present b hb := by
    rcases mem_bindings_define hb with heq | hold
    · exact heq ▸ hv
    · exact hh.present b hold
  existing := hh.existing.define hgood

/-- A primitive may be bound anywhere, for it closes over nothing. -/
theorem defineNative (hh : h.WellFormed) (e : EnvId) (name : Text) (g : Native) :
    (h.define e name (.native g)).WellFormed :=
  hh.define e name rfl fun _ _ _ heq => Value.noConfusion heq

/-- A new environment keeps the heap well formed if its parent and what it binds exist
already. -/
theorem push (hh : h.WellFormed) {env : Environment}
    (hparent : ∀ p, env.parent = some p → p < h.size)
    (hpresent : ∀ b ∈ env.bindings, b.2.isAbsent = false)
    (hgood : ∀ b ∈ env.bindings, Policy.existing.Good h.size b.2) : WellFormed (h.push env) where
  older := by
    intro a p hp
    by_cases ha : a = h.size
    · subst ha
      rw [parent?_push_self] at hp
      exact hparent p hp
    · rw [parent?_push_of_ne h env ha] at hp
      exact hh.older hp
  present := by
    intro a b hb
    by_cases ha : a = h.size
    · subst ha
      rw [bindings_push_self] at hb
      exact hpresent b hb
    · rw [bindings_push_of_ne h env ha] at hb
      exact hh.present b hb
  existing := hh.existing.push (Nat.zero_le _) hgood hparent

/-- An environment may be added that binds no name yet. -/
theorem pushEmpty (hh : h.WellFormed) {parent : Option EnvId} (session : SessionId)
    (hparent : ∀ p, parent = some p → p < h.size) : WellFormed (h.push ⟨parent, session, []⟩) := by
  apply hh.push hparent
  · intro b hb
    cases hb
  · intro b hb
    cases hb

end WellFormed

end Heap

/-- What a step does to the heap: nothing, or it binds the value that was handed on, or it
creates the environment of the closure that is entered. -/
inductive HeapStep (c : Config) : Heap → Prop
  | same : HeapStep c c.state.heap
  | define (env : EnvId) (name : Text) {v : Value} (hcontrol : c.control = .done (.value v))
      (hv : v.isAbsent = false) : HeapStep c (c.state.heap.define env name v)
  | create {env : EnvId} {name : Text} {formals : List Text} {body : Value}
      {captured : Option EnvId} {args : List Value}
      (hcontrol : c.control = .enter env name (.closure formals body captured) args) :
      HeapStep c
        (c.state.heap.push ⟨captured, c.state.heap.sessionOf env, Machine.bindFormals formals args⟩)

namespace Machine

/-- Going on leaves the heap as it is. -/
theorem GoesOn.heapStep {c d : Config} {env : EnvId} {k : List Pending}
    (h : GoesOn env k c.state d) : HeapStep c d.state.heap := by
  rw [h.state]
  exact .same

/-- To enter a function does nothing to the heap but create the environment of a closure.
-/
theorem enter_heapStep (env : EnvId) (name : Text) (callee : Callee) (args : List Value)
    (k : List Pending) (s : State) :
    HeapStep ⟨.enter env name callee args, k, s⟩ (enter env name callee args k s).state.heap := by
  unfold enter
  split
  · exact .same
  · cases callee with
    | native f =>
        have hstate := (perform_goesOn env (.leave :: k) (pushFrame env ⟨name, false⟩ s)
          f.primitive args).state
        simp only [runCallee, Callee.isClosure, hstate]
        exact .same
    | closure formals body captured =>
        simp only [runCallee]
        split
        · exact .create rfl
        · exact .create rfl

/-- To leave a call does nothing to the heap. -/
theorem leave_heap (outcome : Outcome) (k : List Pending) (s : State) :
    (leave outcome k s).state.heap = s.heap := by
  unfold leave
  split
  · rfl
  · rfl

/-- To go on with a value does nothing to the heap but bind it where a definition awaits
it. -/
theorem resume_heapStep (v : Value) (p : Pending) (k : List Pending) (s : State) :
    HeapStep ⟨.done (.value v), p :: k, s⟩ (resume v p k s).state.heap := by
  cases p with
  | operator env head operands => exact (callHead_goesOn env k s head v operands).heapStep
  | operand env name callee done todo =>
      exact (evalOperands_goesOn env k s name callee (v :: done) todo).heapStep
  | leave =>
      rw [resume, leave_heap]
      exact .same
  | define env name =>
      simp only [resume]
      split
      · exact .same
      · rename_i hv
        exact .define env name rfl (by simpa using hv)
  | choose env yes no =>
      simp only [resume]
      split
      · exact .same
      · exact .same
  | applied env operands => exact .same
  | arguments env f =>
      simp only [resume]
      split
      · exact (callValue_goesOn env k s f _).heapStep
      · exact .same

end Machine

namespace Config

/-- **Every step does one of these to the heap.** -/
theorem step_heapStep (c : Config) : HeapStep c c.step.state.heap := by
  obtain ⟨control, pending, s⟩ := c
  cases control with
  | eval env expr => exact (Machine.eval_goesOn env pending s expr).heapStep
  | enter env name callee args => exact Machine.enter_heapStep env name callee args pending s
  | done outcome =>
      cases pending with
      | nil => exact .same
      | cons p k =>
          cases outcome with
          | value v => exact Machine.resume_heapStep v p k s
          | failure f =>
              cases p with
              | leave =>
                  simp only [step, Machine.hand, Machine.leave_heap]
                  exact .same
              | _ => exact .same

end Config

/-- The arguments of a call are bound up to the first that is absent. -/
theorem Machine.mem_bindFormals {formals : List Text} {args : List Value} {b : Text × Value}
    (hb : b ∈ bindFormals formals args) : b.2 ∈ args ∧ b.2.isAbsent = false := by
  obtain ⟨pair, hpair, heq⟩ := Bindings.mem_ofPairs hb
  have hmem := (List.takeWhile_sublist _).subset hpair
  rw [heq]
  refine ⟨(List.of_mem_zip hmem).2, ?_⟩
  simpa using List.mem_takeWhile_imp hpair

/-- **A step leaves the heap well-formed.** -/
theorem Heap.WellFormed.step {c : Config} (hh : c.state.heap.WellFormed)
    (hc : c.Holds .existing) : c.step.state.heap.WellFormed := by
  have hvalues : ∀ v ∈ c.control.values, Policy.existing.Good c.state.heap.size v :=
    (Config.all_mk.mp hc.all).1
  have hheap := c.step_heapStep
  generalize c.step.state.heap = h' at hheap
  cases hheap with
  | same => exact hh
  | define env name hcontrol hv =>
      refine hh.define env name hv (hvalues _ ?_)
      rw [hcontrol]
      exact List.mem_singleton_self _
  | @create env name formals body captured args hcontrol =>
      rw [hcontrol] at hvalues
      obtain ⟨hclosure, hargs⟩ := List.forall_mem_cons.mp hvalues
      refine hh.push ?_ ?_ ?_
      · intro p hp
        obtain rfl : captured = some p := hp
        exact Policy.existing.captured hclosure.1
      · intro b hb
        exact (Machine.mem_bindFormals hb).2
      · intro b hb
        exact hargs _ (Machine.mem_bindFormals hb).1

namespace Config

/-- The environments that so many steps create, in the order of their creation. -/
def created : Nat → Config → List EnvId
  | 0, _ => []
  | n + 1, c => c.state.heap.added c.step.state.heap ++ created n c.step

theorem created_done (n : Nat) (outcome : Outcome) (s : State) :
    created n ⟨.done outcome, [], s⟩ = [] := by
  have hnone : s.heap.added s.heap = [] := by
    have h := Heap.range_append_added (Nat.le_refl s.heap.size)
    exact List.append_right_eq_self.mp h
  induction n with
  | zero => rfl
  | succ n ih => exact List.append_eq_nil_iff.mpr ⟨hnone, ih⟩

/-- No environment is ever taken away. -/
theorem size_le_step (c : Config) : c.state.heap.size ≤ c.step.state.heap.size := by
  have hheap := c.step_heapStep
  generalize c.step.state.heap = h' at hheap
  cases hheap with
  | same => exact Nat.le_refl _
  | define env name _ _ =>
      rw [Heap.size_define]
  | create _ =>
      rw [Array.size_push]
      exact Nat.le_succ _

/-- **A run numbers the environments it creates on.** -/
theorem range_append_created {n : Nat} {c : Config} {outcome : Outcome} {s : State}
    (h : run n c = some (outcome, s)) :
    List.range c.state.heap.size ++ c.created n = List.range s.heap.size := by
  fun_induction run n c with
  | case1 n outcome s =>
      cases h
      rw [created_done, List.append_nil]
  | case2 => cases h
  | case3 n c _ ih =>
      rw [created, ← List.append_assoc, Heap.range_append_added c.size_le_step]
      exact ih h

/-- The calls of closures in a log. -/
def closureCalls (calls : Array Call) : Nat := calls.countP (·.frame.closure)

/-- An environment is created with each closure call that is logged, and with nothing else. -/
theorem step_creates (c : Config) :
    c.step.state.heap.size + closureCalls c.state.calls =
      c.state.heap.size + closureCalls c.step.state.calls := by
  have heffect := c.step_effect
  generalize c.step = d at heffect
  cases heffect with
  | quiet hstate _ => rw [hstate]
  | define env name v _ hstate _ => rw [hstate, Heap.size_define]
  | callNative env name _ _ hstate _ _ =>
      rw [hstate]
      simp [Machine.pushFrame, closureCalls]
  | callClosure env name captured bindings _ _ hstate _ _ =>
      rw [hstate]
      simp only [Machine.pushFrame, closureCalls, Array.size_push, Array.countP_push, if_true]
      omega
  | leave _ hstate _ _ => rw [hstate]
  | stuck _ hstate _ _ => rw [hstate]

/-- A run creates as many environments as it logs calls of closures. -/
theorem run_creates {n : Nat} {c : Config} {outcome : Outcome} {s : State}
    (h : run n c = some (outcome, s)) :
    s.heap.size + closureCalls c.state.calls = c.state.heap.size + closureCalls s.calls := by
  refine run_invariant (P := fun d => d.state.heap.size + closureCalls c.state.calls =
    c.state.heap.size + closureCalls d.state.calls) ?_ rfl h
  intro d hd
  have hstep := d.step_creates
  omega

end Config

namespace Interpreter

variable {i : Interpreter} {e : EnvId} {n : Nat} {ev : Evaluation}

section Run

variable {start : State → Config} (hstart : ∀ s, Machine.GoesOn e [] s (start s))
include hstart

/-- Whatever is begun in an environment that exists, with values that capture such, leaves the
heap well-formed. -/
theorem run_wellFormed (he : e < i.heap.size) (hheap : i.heap.WellFormed)
    (hall : (start (i.state e)).All (Policy.existing.Good i.heap.size))
    (h : i.run e start n = some ev) :
    ev.interpreter.heap.WellFormed ∧
      ∀ v ∈ ev.outcome.values, Policy.existing.Good ev.interpreter.heap.size v := by
  obtain ⟨outcome, s, hrun, rfl⟩ := run_eq_some_iff.mp h
  have hholds := (hstart (i.state e)).holds (Nat.zero_le _) hheap.existing he hall
  have hwf : (start (i.state e)).state.heap.WellFormed := by
    rw [(hstart (i.state e)).state]
    exact hheap
  -- Closures are over environments that exist at every step, so both invariants go together.
  have hend := Config.run_invariant
    (P := fun c => (c.Holds .existing ∧ Balanced (i.stackOf e) c) ∧ c.state.heap.WellFormed)
    (fun c hc => ⟨⟨hc.1.1.step hc.1.2, hc.1.2.step⟩, hc.2.step hc.1.1⟩)
    ⟨⟨hholds, (hstart (i.state e)).balanced⟩, hwf⟩ hrun
  exact ⟨hend.2, (Config.all_mk.mp hend.1.1.all).1⟩

/-- The environments of a heap are numbered on from those that were there. -/
theorem range_append_created (h : i.run e start n = some ev) :
    List.range i.heap.size ++ (start (i.state e)).created n =
      List.range ev.interpreter.heap.size := by
  obtain ⟨outcome, s, hrun, rfl⟩ := run_eq_some_iff.mp h
  have hcreated := Config.range_append_created hrun
  rw [(hstart (i.state e)).state] at hcreated
  exact hcreated

/-- An evaluation creates as many environments as it makes calls of closures. -/
theorem length_created (h : i.run e start n = some ev) :
    ((start (i.state e)).created n).length = ev.calls.countP (·.frame.closure) := by
  have hrange := congrArg List.length (range_append_created hstart h)
  obtain ⟨outcome, s, hrun, rfl⟩ := run_eq_some_iff.mp h
  have hcreates := Config.run_creates hrun
  rw [(hstart (i.state e)).state] at hcreates
  simp only [List.length_append, List.length_range] at hrange
  have hheap : (i.withState e s).heap.size = s.heap.size := rfl
  have hnone : Config.closureCalls (i.state e).calls = 0 := rfl
  have hsize : (i.state e).heap.size = i.heap.size := rfl
  show _ = Config.closureCalls s.calls
  omega

end Run

/-- Where the evaluation of a call that is given as a list begins. -/
def formStart (e : EnvId) (form : Value) : State → Config :=
  match form with
  | .list _ => fun s => ⟨.eval e form, [], s⟩
  | _ => Machine.refuse (.about .notForm form) []

/-- A form is evaluated by a run like any other, from a start of its own. -/
theorem evalForm_eq_run (i : Interpreter) (e : EnvId) (form : Value) (n : Nat) :
    i.evalForm e form n = i.run e (formStart e form) n := by
  cases form <;> rfl

theorem formStart_goesOn (e : EnvId) (form : Value) (s : State) :
    Machine.GoesOn e [] s (formStart e form s) := by
  cases form with
  | list cells => exact eval_goesOn e _ s
  | _ => exact Machine.refuse_goesOn e [] s _

theorem formStart_all {P : Value → Prop} {form : Value} (hform : P form) (e : EnvId) (s : State) :
    (formStart e form s).All P := by
  cases form with
  | list cells => exact Config.all_mk.mpr ⟨by simpa [Control.values] using hform, by simp⟩
  | _ => exact Machine.refuse_about_all [] s (by simp) .notForm hform

/-- What comes of an interpreter without environments.  `ids` are the environments in the order
of their creation, `vs` the values that evaluation has returned.  Environments that are named
have been created before, and so have those that are captured by values handed in. -/
inductive Built : List EnvId → List Value → Interpreter → Prop
  | empty : Built [] [] empty
  | newRoot {ids vs i} (h : Built ids vs i) :
      Built (ids ++ i.heap.added i.newRoot.heap) vs i.newRoot
  | newChild {ids vs i parent} (h : Built ids vs i) (hparent : parent ∈ ids) :
      Built (ids ++ i.heap.added (i.newChild parent).heap) vs (i.newChild parent)
  | fork {ids vs i parent} (h : Built ids vs i) (hparent : parent ∈ ids) :
      Built (ids ++ i.heap.added (i.fork parent).heap) vs (i.fork parent)
  | newUser {ids vs i} (settings : List Setting) (h : Built ids vs i) :
      Built (ids ++ i.heap.added (i.newUser settings).2.heap) vs (i.newUser settings).2
  | put {ids vs i e name v i'} (h : Built ids vs i) (he : e ∈ ids)
      (hv : ∀ a, v.Captures a → a ∈ ids) (hput : i.put e name v = .ok i') : Built ids vs i'
  | register {ids vs i e} (mode : Mode) (definitions : List Definition) (h : Built ids vs i)
      (he : e ∈ ids) : Built ids vs (i.register mode e definitions).2
  | eval {ids vs i e expr n ev} (h : Built ids vs i) (he : e ∈ ids)
      (hexpr : ∀ a, expr.Captures a → a ∈ ids) (hev : i.eval e expr n = some ev) :
      Built (ids ++ Config.created n ⟨.eval e expr, [], i.state e⟩) (vs ++ ev.outcome.values)
        ev.interpreter
  | evalForm {ids vs i e form n ev} (h : Built ids vs i) (he : e ∈ ids)
      (hform : ∀ a, form.Captures a → a ∈ ids) (hev : i.evalForm e form n = some ev) :
      Built (ids ++ (formStart e form (i.state e)).created n) (vs ++ ev.outcome.values)
        ev.interpreter
  | call {ids vs i e f args n ev} (h : Built ids vs i) (he : e ∈ ids)
      (hf : ∀ a, f.Captures a → a ∈ ids) (hargs : ∀ a, args.Captures a → a ∈ ids)
      (hev : i.call e f args n = some ev) :
      Built (ids ++ (Machine.callValue e f args [] (i.state e)).created n)
        (vs ++ ev.outcome.values) ev.interpreter
  | evalText {ids vs i e source expr n reply} (h : Built ids vs i) (he : e ∈ ids)
      (hread : i.read e source = .ok expr) (hreply : i.evalText e source n = some reply) :
      Built (ids ++ Config.created n ⟨.eval e expr, [], i.state e⟩) vs reply.interpreter
  | unreadable {ids vs i e source failure n reply} (h : Built ids vs i) (he : e ∈ ids)
      (hread : i.read e source = .error failure) (hreply : i.evalText e source n = some reply) :
      Built ids vs reply.interpreter

/-- The environments are numbered in the order of their creation, and closures are over such
environments in all that is bound and in the values `vs`. -/
structure Numbered (ids : List EnvId) (vs : List Value) (i : Interpreter) : Prop where
  ids_eq : ids = List.range i.heap.size
  heap : i.heap.WellFormed
  values : ∀ v ∈ vs, Policy.existing.Good i.heap.size v

namespace Numbered

variable {ids : List EnvId} {vs : List Value} {i i' : Interpreter}

theorem mem_iff (h : Numbered ids vs i) {a : EnvId} : a ∈ ids ↔ a < i.heap.size := by
  rw [h.ids_eq, List.mem_range]

/-- A value that captures numbered environments only closes over what exists. -/
theorem good (h : Numbered ids vs i) {v : Value} (hv : ∀ a, v.Captures a → a ∈ ids) :
    Policy.existing.Good i.heap.size v :=
  Policy.good_existing.mpr fun a ha => h.mem_iff.mp (hv a ha)

/-- What was numbered stays so when new environments are numbered after it. -/
theorem grow (h : Numbered ids vs i) {new : List EnvId} {ws : List Value}
    (hids : List.range i.heap.size ++ new = List.range i'.heap.size) (hheap : i'.heap.WellFormed)
    (hvalues : ∀ v ∈ ws, v ∈ vs ∨ Policy.existing.Good i'.heap.size v) :
    Numbered (ids ++ new) ws i' := by
  have hle : i.heap.size ≤ i'.heap.size := by
    have hlength := congrArg List.length hids
    simp only [List.length_append, List.length_range] at hlength
    omega
  refine ⟨by rw [h.ids_eq, hids], hheap, ?_⟩
  intro v hv
  rcases hvalues v hv with hold | hnew
  · apply Policy.good_existing.mpr
    intro a ha
    exact Nat.lt_of_lt_of_le (Policy.good_existing.mp (h.values v hold) a ha) hle
  · exact hnew

/-- An environment that is created is the next one. -/
theorem create (h : Numbered ids vs i) (hsize : i'.heap.size = i.heap.size + 1)
    (hheap : i'.heap.WellFormed) : Numbered (ids ++ i.heap.added i'.heap) vs i' :=
  h.grow (Heap.range_append_added (by omega)) hheap fun _ hv => Or.inl hv

/-- Bindings may change without a change of numbers. -/
theorem rebind (h : Numbered ids vs i) (hsize : i'.heap.size = i.heap.size)
    (hheap : i'.heap.WellFormed) : Numbered ids vs i' := by
  refine ⟨by rw [h.ids_eq, hsize], hheap, ?_⟩
  rw [hsize]
  exact h.values

theorem lt_of_parent (h : Numbered ids vs i) {parent : EnvId} (hparent : parent ∈ ids) (p : EnvId)
    (hp : some parent = some p) : p < i.heap.size :=
  Option.some.inj hp ▸ h.mem_iff.mp hparent

/-- A value that the host binds keeps the numbering, if it captures numbered environments.
-/
theorem put (h : Numbered ids vs i) {e : EnvId} {name : Text} {v : Value}
    (hv : ∀ a, v.Captures a → a ∈ ids) (hput : i.put e name v = .ok i') : Numbered ids vs i' := by
  unfold Interpreter.put at hput
  split at hput
  · cases hput
  · rename_i hpresent
    cases hput
    exact h.rebind (Heap.size_define ..)
      (h.heap.define e name (by simpa using hpresent) (h.good hv))

/-- To register primitives keeps the numbering. -/
theorem register (h : Numbered ids vs i) (mode : Mode) (e : EnvId) (definitions : List Definition) :
    Numbered ids vs (i.register mode e definitions).2 := by
  have hkept := register_heap (P := fun h' => h'.WellFormed ∧ h'.size = i.heap.size) ?_ mode e
    definitions ⟨h.heap, rfl⟩
  · exact h.rebind hkept.2 hkept.1
  · intro h' e name g hh
    exact ⟨hh.1.defineNative e name g, by rw [Heap.size_define, hh.2]⟩

/-- The environment of a new user is numbered next. -/
theorem newUser (h : Numbered ids vs i) (settings : List Setting) :
    Numbered (ids ++ i.heap.added (i.newUser settings).2.heap) vs (i.newUser settings).2 := by
  have hroot : i.newRoot.heap.WellFormed := h.heap.pushEmpty _ (by simp)
  exact h.create size_newUser
    (setUp_heap (fun _ e name g hh => hh.defineNative e name g) i.nextEnv _ hroot)

/-- What a run creates is numbered in the order of its steps. -/
theorem run (h : Numbered ids vs i) {e : EnvId} {start : State → Config} {n : Nat}
    {ev : Evaluation} (he : e ∈ ids) (hstart : ∀ s, Machine.GoesOn e [] s (start s))
    (hall : (start (i.state e)).All (Policy.existing.Good i.heap.size))
    (hev : i.run e start n = some ev) :
    Numbered (ids ++ (start (i.state e)).created n) (vs ++ ev.outcome.values) ev.interpreter := by
  obtain ⟨hheap, hvalues⟩ := run_wellFormed hstart (h.mem_iff.mp he) h.heap hall hev
  refine h.grow (range_append_created hstart hev) hheap ?_
  intro v hv
  exact (List.mem_append.mp hv).imp_right (hvalues v)

/-- What an evaluation creates is numbered in the order of its steps. -/
theorem eval (h : Numbered ids vs i) {e : EnvId} {expr : Value} {n : Nat}
    {ev : Evaluation} (he : e ∈ ids) (hexpr : Policy.existing.Good i.heap.size expr)
    (hev : i.eval e expr n = some ev) :
    Numbered (ids ++ Config.created n ⟨.eval e expr, [], i.state e⟩) (vs ++ ev.outcome.values)
      ev.interpreter := by
  refine h.run he (eval_goesOn e expr) ?_ hev
  exact Config.all_mk.mpr ⟨by simpa [Control.values] using hexpr, by simp⟩

/-- A source text is evaluated like the expression that is read, but no value is returned. -/
theorem evalText (h : Numbered ids vs i) {e : EnvId} {source : Text} {expr : Value} {n : Nat}
    {reply : Reply} (he : e ∈ ids) (hread : i.read e source = .ok expr)
    (hreply : i.evalText e source n = some reply) :
    Numbered (ids ++ Config.created n ⟨.eval e expr, [], i.state e⟩) vs reply.interpreter := by
  rcases evalText_eq_some_iff.mp hreply with ⟨failure, herror, -⟩ | ⟨expr', ev, hok, hev, hr⟩
  · rw [hread] at herror
    cases herror
  · rw [hread] at hok
    cases hok
    have heval := h.eval he ((read_eq_ok_isDatum hread).good _ _) hev
    rw [hr]
    exact ⟨heval.ids_eq, heval.heap, fun v hv => heval.values v (List.mem_append_left _ hv)⟩

end Numbered

/-- **Whatever is built is numbered.** -/
theorem Built.numbered {ids : List EnvId} {vs : List Value} {i : Interpreter}
    (h : Built ids vs i) : Numbered ids vs i := by
  induction h with
  | empty => exact ⟨rfl, .empty, by simp⟩
  | newRoot _ ih => exact ih.create (Array.size_push _) (ih.heap.pushEmpty _ (by simp))
  | newChild _ hparent ih =>
      exact ih.create (Array.size_push _) (ih.heap.pushEmpty _ (ih.lt_of_parent hparent))
  | fork _ hparent ih =>
      exact ih.create (Array.size_push _) (ih.heap.pushEmpty _ (ih.lt_of_parent hparent))
  | newUser settings _ ih => exact ih.newUser settings
  | put _ _ hv hput ih => exact ih.put hv hput
  | register mode definitions _ _ ih => exact ih.register mode _ definitions
  | eval _ he hexpr hev ih => exact ih.eval he (ih.good hexpr) hev
  | @evalForm _ _ i e form n ev _ he hform hev ih =>
      rw [evalForm_eq_run] at hev
      exact ih.run he (formStart_goesOn e form) (formStart_all (ih.good hform) e _) hev
  | @call _ _ i e f args n ev _ he hf hargs hev ih =>
      refine ih.run he (fun s => Machine.callValue_goesOn e [] s f args) ?_ hev
      exact Machine.callValue_all [] _ (by simp) (Policy.closed (ih.mem_iff.mp he)) (ih.good hf)
        (ih.good hargs)
  | evalText _ he hread hreply ih => exact ih.evalText he hread hreply
  | unreadable _ _ hread hreply ih =>
      rcases evalText_eq_some_iff.mp hreply with ⟨failure, -, hr⟩ | ⟨expr, ev, hok, -, -⟩
      · rw [hr]
        exact ih
      · rw [hread] at hok
        cases hok

/-- **The heap of environments is well-formed**, whatever is built: environments are numbered
in the order of their creation, from zero on and without a gap.  The parent of an environment
exists and is older, so there is no endless chain of parents.  All that is captured in a value
that is bound or was returned exists, and no name is bound to an absent value.  Moreover one
evaluation creates as many environments as it pushes frames for closures. -/
theorem environments_are_well_formed {ids : List EnvId} {vs : List Value} {i : Interpreter}
    (h : Built ids vs i) :
    ids = List.range i.heap.size ∧
    (∀ a p, i.heap.parent? a = some p → a ∈ ids ∧ p ∈ ids ∧ p < a) ∧
    WellFounded (fun p a => i.heap.parent? a = some p) ∧
    (∀ a, ∀ b ∈ i.heap.bindings a,
      b.2.isAbsent = false ∧ ∀ p, b.2.Captures p → p ∈ ids) ∧
    (∀ v ∈ vs, ∀ p, v.Captures p → p ∈ ids) ∧
    (∀ e expr n ev, i.eval e expr n = some ev →
      (Config.created n ⟨.eval e expr, [], i.state e⟩).length =
        ev.calls.countP (·.frame.closure)) ∧
    (∀ e form n ev, i.evalForm e form n = some ev →
      ((formStart e form (i.state e)).created n).length = ev.calls.countP (·.frame.closure)) ∧
    ∀ e f args n ev, i.call e f args n = some ev →
      ((Machine.callValue e f args [] (i.state e)).created n).length =
        ev.calls.countP (·.frame.closure) := by
  have hn := h.numbered
  have hlt : ∀ {a p}, i.heap.parent? a = some p → p < a := hn.heap.older
  have hexists : ∀ {a p}, i.heap.parent? a = some p → a < i.heap.size := by
    intro a p hp
    apply Nat.lt_of_not_le
    intro hle
    rw [Heap.parent?_of_size_le hle] at hp
    cases hp
  refine ⟨hn.ids_eq, ?_, ?_, ?_, ?_, ?_, ?_, ?_⟩
  · intro a p hp
    have ha := hexists hp
    exact ⟨hn.mem_iff.mpr ha, hn.mem_iff.mpr (Nat.lt_trans (hlt hp) ha), hlt hp⟩
  · exact Subrelation.wf hlt Nat.lt_wfRel.wf
  · intro a b hb
    refine ⟨hn.heap.present b hb, ?_⟩
    intro p hp
    exact hn.mem_iff.mpr (Policy.good_existing.mp (hn.heap.good hb) p hp)
  · intro v hv p hp
    exact hn.mem_iff.mpr (Policy.good_existing.mp (hn.values v hv) p hp)
  · intro e expr n ev hev
    exact length_created (eval_goesOn e expr) hev
  · intro e form n ev hev
    rw [evalForm_eq_run] at hev
    exact length_created (formStart_goesOn e form) hev
  · intro e f args n ev hev
    exact length_created (fun s => Machine.callValue_goesOn e [] s f args) hev

/-- A closure is called in a user environment, and the environment of the call is forked. -/
theorem environments_of_a_fork :
    ∃ ids vs ev i, (empty.newUser []).2.eval 0 (.list [.list [.symbol "fn", .list [.symbol "x"],
        .list [.symbol "def", .symbol "y", .symbol "x"]], .symbol "list"]) 100 = some ev ∧
      i = ev.interpreter.fork 1 ∧ Built ids vs i ∧ ids = [0, 1, 2] ∧ i.heap.parent? 2 = some 1 ∧
      WellFounded (fun p a => i.heap.parent? a = some p) := by
  have hdatum : (Value.list [.list [.symbol "fn", .list [.symbol "x"],
      .list [.symbol "def", .symbol "y", .symbol "x"]], .symbol "list"]).IsDatum := by
    simp [Value.IsDatum, Value.Everywhere, Value.EverywhereIn]
  have hend : ((empty.newUser []).2.eval 0 (.list [.list [.symbol "fn", .list [.symbol "x"],
      .list [.symbol "def", .symbol "y", .symbol "x"]], .symbol "list"]) 100).any (fun ev =>
        (ev.interpreter.fork 1).heap.size = 3 ∧
          (ev.interpreter.fork 1).heap.parent? 2 = some 1) = true := by
    decide +kernel
  rw [Option.any_eq_true] at hend
  obtain ⟨ev, hev, hsize⟩ := hend
  obtain ⟨hsize, hparent⟩ := of_decide_eq_true hsize
  have hbuilt := (Built.empty.newUser []).eval (by decide +kernel)
    (fun a ha => absurd ha (hdatum.not_captures a)) hev
  have hfork := hbuilt.fork (show 1 ∈ _ by decide +kernel)
  have hwell := environments_are_well_formed hfork
  refine ⟨_, _, ev, _, hev, rfl, hfork, ?_, hparent, hwell.2.2.1⟩
  rw [hwell.1, hsize]
  rfl

end Interpreter

end LexLisp
