import LexLisp.Interpreter.Evaluation
import LexLisp.Interpreter.SetUp
import LexLisp.Proofs.StepEffect

/-!
# Which environments an evaluation writes

Names are bound in two ways: a definition binds a name in the environment at
work, and a closure call binds the formals in the environment created for it.
A closure body is evaluated in that fresh environment, never in the captured
one, so all work of an evaluation in `e` is done in `e` itself and in
environments younger than the evaluation.

`Heap.Evolves e h h'` says what this leaves of an older heap `h`: parents and
sessions are fixed, only `e` may be written, and there no name is lost.
-/

namespace LexLisp

namespace Heap

/-- An environment that does not exist has no parent. -/
theorem parent?_of_size_le {h : Heap} {a : EnvId} (ha : h.size ≤ a) : h.parent? a = none := by
  simp [parent?, Array.getElem?_eq_none ha]

/-- An environment that does not exist binds nothing. -/
theorem bindings_of_size_le {h : Heap} {a : EnvId} (ha : h.size ≤ a) : h.bindings a = [] := by
  simp [bindings, Array.getElem?_eq_none ha]

variable (h : Heap) (env : Environment) {a e : EnvId}

/-- A new environment leaves the others as they are. -/
theorem getElem?_push_of_ne (ha : a ≠ h.size) : (h.push env)[a]? = h[a]? := by
  rw [Array.getElem?_push, if_neg ha]

theorem parent?_push_of_ne (ha : a ≠ h.size) : parent? (h.push env) a = h.parent? a := by
  simp only [parent?, getElem?_push_of_ne h env ha]

theorem sessionOf_push_of_ne (ha : a ≠ h.size) : sessionOf (h.push env) a = h.sessionOf a := by
  simp only [sessionOf, getElem?_push_of_ne h env ha]

/-- A new environment leaves the bindings of the others. -/
theorem bindings_push_of_ne (ha : a ≠ h.size) : bindings (h.push env) a = h.bindings a := by
  simp only [bindings, getElem?_push_of_ne h env ha]

/-- A new environment has the parent it is created with. -/
theorem parent?_push_self : parent? (h.push env) h.size = env.parent := by
  simp [parent?]

/-- A new environment has the bindings it is created with. -/
theorem bindings_push_self : bindings (h.push env) h.size = env.bindings := by
  simp [bindings]

/-- A new environment belongs to the session it is created in. -/
theorem sessionOf_push_self : sessionOf (h.push env) h.size = env.session := by
  simp [sessionOf]

variable (name : Text) (v : Value)

@[simp] theorem size_define : (h.define e name v).size = h.size := by
  simp [define]

/-- A definition leaves the other environments as they are. -/
theorem getElem?_define_of_ne (ha : a ≠ e) : (h.define e name v)[a]? = h[a]? := by
  rw [define, Array.getElem?_modify, if_neg ha.symm]

/-- A definition changes the bindings of its environment and nothing else of it. -/
theorem getElem?_define_self : (h.define e name v)[e]? =
    h[e]?.map fun env => { env with bindings := env.bindings.insert name v } := by
  rw [define, Array.getElem?_modify, if_pos rfl]

/-- No definition changes a parent. -/
@[simp] theorem parent?_define : (h.define e name v).parent? a = h.parent? a := by
  by_cases ha : a = e
  · subst ha
    cases hc : h[a]? <;> simp [parent?, getElem?_define_self, hc]
  · simp only [parent?, getElem?_define_of_ne h name v ha]

/-- No definition changes a session. -/
@[simp] theorem sessionOf_define : (h.define e name v).sessionOf a = h.sessionOf a := by
  by_cases ha : a = e
  · subst ha
    cases hc : h[a]? <;> simp [sessionOf, getElem?_define_self, hc]
  · simp only [sessionOf, getElem?_define_of_ne h name v ha]

/-- A definition leaves the bindings of other environments. -/
theorem bindings_define_of_ne (ha : a ≠ e) :
    (h.define e name v).bindings a = h.bindings a := by
  simp only [bindings, getElem?_define_of_ne h name v ha]

/-- What a name is bound to after a definition. -/
theorem find?_define (other : Text) :
    ((h.define e name v).bindings a).find? other =
      if a = e ∧ e < h.size ∧ other = name then some v else (h.bindings a).find? other := by
  by_cases hae : a = e
  · subst hae
    by_cases hlt : a < h.size
    · have hcell : h[a]? = some h[a] := Array.getElem?_eq_getElem hlt
      simp only [bindings, getElem?_define_self, hcell, Option.map_some, Option.getD_some, hlt,
        true_and]
      split
      · rename_i hname
        rw [hname, Bindings.find?_insert_self]
      · rename_i hname
        rw [Bindings.find?_insert_of_ne hname]
    · have hnone : h.size ≤ a := Nat.le_of_not_lt hlt
      have hnone' : (h.define a name v).size ≤ a := by rwa [size_define]
      rw [bindings_of_size_le hnone, bindings_of_size_le hnone', if_neg fun hc => hlt hc.2.1]
  · rw [bindings_define_of_ne h name v hae, if_neg fun hc => hae hc.1]

/-- A definition takes no name away. -/
theorem isSome_find?_define {other : Text} (hbound : ((h.bindings a).find? other).isSome) :
    (((h.define e name v).bindings a).find? other).isSome := by
  rw [find?_define]
  split
  · rfl
  · exact hbound

/-- What an evaluation in `e` leaves of the heap `h` it began with. -/
structure Evolves (e : EnvId) (h h' : Heap) : Prop where
  size_le : h.size ≤ h'.size
  parent : ∀ a < h.size, h'.parent? a = h.parent? a
  session : ∀ a < h.size, h'.sessionOf a = h.sessionOf a
  others : ∀ a < h.size, a ≠ e → h'.bindings a = h.bindings a
  bound : ∀ name, ((h.bindings e).find? name).isSome → ((h'.bindings e).find? name).isSome

namespace Evolves

theorem refl : Evolves e h h :=
  ⟨Nat.le_refl _, fun _ _ => rfl, fun _ _ => rfl, fun _ _ _ => rfl, fun _ hbound => hbound⟩

variable {h} {h' : Heap}

/-- Creating an environment writes no older one. -/
theorem push (hev : Evolves e h h') : Evolves e h (h'.push env) := by
  have hold : ∀ {a : EnvId}, a < h.size → a ≠ h'.size :=
    fun ha => Nat.ne_of_lt (Nat.lt_of_lt_of_le ha hev.size_le)
  refine ⟨?_, ?_, ?_, ?_, ?_⟩
  · rw [Array.size_push]
    exact Nat.le_succ_of_le hev.size_le
  · exact fun a ha => (parent?_push_of_ne h' env (hold ha)).trans (hev.parent a ha)
  · exact fun a ha => (sessionOf_push_of_ne h' env (hold ha)).trans (hev.session a ha)
  · exact fun a ha hne => (bindings_push_of_ne h' env (hold ha)).trans (hev.others a ha hne)
  · intro other hbound
    -- An environment that binds a name is there already.
    have he : e < h.size := by
      rcases Nat.lt_or_ge e h.size with hlt | hge
      · exact hlt
      · simp [bindings_of_size_le hge] at hbound
    rw [bindings_push_of_ne h' env (hold he)]
    exact hev.bound other hbound

/-- A definition in `e`, or in an environment younger than `h`, is allowed. -/
theorem define (hev : Evolves e h h') (ha : a = e ∨ h.size ≤ a) :
    Evolves e h (h'.define a name v) where
  size_le := by simpa using hev.size_le
  parent b hb := by simpa using hev.parent b hb
  session b hb := by simpa using hev.session b hb
  others b hb hne := by
    have hba : b ≠ a := by
      rintro rfl
      rcases ha with heq | hge
      · exact hne heq
      · omega
    rw [bindings_define_of_ne h' name v hba]
    exact hev.others b hb hne
  bound other hbound := isSome_find?_define h' name v (hev.bound other hbound)

end Evolves

end Heap

namespace Machine

/-- Work that began in `e` on the heap `h` goes on only in `e` and in younger
environments, and has written only those. -/
structure WorksFrom (e : EnvId) (h : Heap) (c : Config) : Prop where
  evolves : Heap.Evolves e h c.state.heap
  envs : ∀ a ∈ c.envs, a = e ∨ h.size ≤ a

/-- A step stays within `e` and the environments younger than `h`. -/
theorem WorksFrom.step {e : EnvId} {h : Heap} {c : Config} (hc : WorksFrom e h c) :
    WorksFrom e h c.step := by
  have hsub : ∀ {d : Config}, d.envs ⊆ c.envs → ∀ a ∈ d.envs, a = e ∨ h.size ≤ a :=
    fun henvs a ha => hc.envs a (henvs ha)
  cases c.step_effect with
  | quiet hstate hwork => exact ⟨hstate ▸ hc.evolves, hsub hwork.envs⟩
  | define env name v henv hstate hwork =>
      refine ⟨?_, hsub hwork.envs⟩
      rw [hstate]
      exact hc.evolves.define name v (hc.envs env henv)
  | callNative env name henv hroom hstate hdepth henvs =>
      exact ⟨hstate ▸ hc.evolves, hsub henvs⟩
  | callClosure env name captured bindings henv hroom hstate hdepth henvs =>
      refine ⟨?_, ?_⟩
      · rw [hstate]
        exact hc.evolves.push _
      · -- The environment of the call is the youngest of all.
        intro a ha
        rcases List.mem_cons.mp (henvs ha) with rfl | hold
        · exact Or.inr hc.evolves.size_le
        · exact hc.envs a hold
  | leave hheight hstate hdepth henvs => exact ⟨hstate ▸ hc.evolves, hsub henvs⟩
  | stuck hheight hstate hdepth henvs => exact ⟨hstate ▸ hc.evolves, hsub henvs⟩

/-- A beginning in `e` works from the heap it finds. -/
theorem GoesOn.worksFrom {e : EnvId} {s : State} {c : Config} (h : GoesOn e [] s c) :
    WorksFrom e s.heap c where
  evolves := by
    rw [h.state]
    exact Heap.Evolves.refl s.heap
  envs a ha := by
    have := h.envs ha
    simp only [Pending.envs_nil, List.mem_singleton] at this
    exact Or.inl this

end Machine

namespace Interpreter

/-- A finished evaluation is a finished run of the machine. -/
theorem run_eq_some_iff {i : Interpreter} {e : EnvId} {start : State → Config} {n : Nat}
    {ev : Evaluation} :
    i.run e start n = some ev ↔
      ∃ outcome s, (start (i.state e)).run n = some (outcome, s) ∧
        ev = ⟨outcome, s.calls, i.withState e s⟩ := by
  simp only [run, Option.map_eq_some_iff, Prod.exists]
  grind

/-- Whatever is begun in `e` writes only `e` and environments of its own. -/
theorem run_evolves {i : Interpreter} {e : EnvId} {start : State → Config} {n : Nat}
    {ev : Evaluation} (hstart : ∀ s, Machine.GoesOn e [] s (start s))
    (h : i.run e start n = some ev) : Heap.Evolves e i.heap ev.interpreter.heap := by
  obtain ⟨outcome, s, hrun, rfl⟩ := run_eq_some_iff.mp h
  have hend : Machine.WorksFrom e i.heap ⟨.done outcome, [], s⟩ :=
    Config.run_invariant (fun c hc => Machine.WorksFrom.step hc) (hstart (i.state e)).worksFrom
      hrun
  exact hend.evolves

/-- An evaluation begins with its expression. -/
theorem eval_goesOn (e : EnvId) (expr : Value) (s : State) :
    Machine.GoesOn e [] s ⟨.eval e expr, [], s⟩ :=
  ⟨rfl, rfl, by simp [Control.env?]⟩

/-- **Who may be written.**  An evaluation in `e` changes the bindings of no
environment that was there before it, `e` itself excepted, and takes no name
away from `e`.  Parents and sessions are fixed, and no environment goes away. -/
theorem eval_writes_only_own_environment {i : Interpreter} {e : EnvId} {expr : Value} {n : Nat}
    {ev : Evaluation} (h : i.eval e expr n = some ev) :
    i.heap.size ≤ ev.interpreter.heap.size ∧
    (∀ a < i.heap.size, a ≠ e → ev.interpreter.heap.bindings a = i.heap.bindings a) ∧
    (∀ name, ((i.heap.bindings e).find? name).isSome →
      ((ev.interpreter.heap.bindings e).find? name).isSome) ∧
    (∀ a < i.heap.size, ev.interpreter.heap.parent? a = i.heap.parent? a ∧
      ev.interpreter.heap.sessionOf a = i.heap.sessionOf a) := by
  have hev := run_evolves (eval_goesOn e expr) h
  exact ⟨hev.size_le, hev.others, hev.bound, fun a ha => ⟨hev.parent a ha, hev.session a ha⟩⟩

/-- In a fork of an environment, a closure of that environment is called that
defines a name, and the result is given a name, too. -/
theorem definition_in_closure_writes_no_parent :
    ∃ i ev, i = ((empty.newUser []).2.define 0 "f"
        (.closure [] (.list [.symbol "def", .symbol "x", .symbol "f"]) (some 0))).fork 0 ∧
      i.eval 1 (.list [.symbol "def", .symbol "y", .list [.symbol "f"]]) 100 = some ev ∧
      i.heap.size ≤ ev.interpreter.heap.size ∧
      (∀ a < i.heap.size, a ≠ 1 → ev.interpreter.heap.bindings a = i.heap.bindings a) ∧
      (∀ name, ((i.heap.bindings 1).find? name).isSome →
        ((ev.interpreter.heap.bindings 1).find? name).isSome) ∧
      (∀ a < i.heap.size, ev.interpreter.heap.parent? a = i.heap.parent? a ∧
        ev.interpreter.heap.sessionOf a = i.heap.sessionOf a) := by
  obtain ⟨ev, hev⟩ := Option.isSome_iff_exists.mp (show (Interpreter.eval
    (((empty.newUser []).2.define 0 "f"
      (.closure [] (.list [.symbol "def", .symbol "x", .symbol "f"]) (some 0))).fork 0) 1
    (.list [.symbol "def", .symbol "y", .list [.symbol "f"]]) 100).isSome by decide +kernel)
  exact ⟨_, ev, rfl, hev, eval_writes_only_own_environment hev⟩

end Interpreter

end LexLisp
