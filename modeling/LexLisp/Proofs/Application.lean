import LexLisp.Proofs.ProtocolRefinement
import LexLisp.Proofs.SetUp
import LexLisp.Proofs.StackLimit

/-!
# Direct application and `apply`

A value does not depend on the frames below it: what is evaluated to a value can be evaluated
to it again wherever the heap is the same and the call stack has no limit, under other frames
and other names of calls, and it leaves the same heap (`Protocol.Evaluates.repeats`).  The rules
that a value comes by give values to all that they evaluate, so the other rules do not matter.

By `apply` the function and the operands of a call are evaluated under the frame of `apply`, and
the function is entered by its own name.  So nothing but the log of calls tells the two apart.
-/

namespace LexLisp

namespace Protocol

/-- What `R` makes of the state `s` it also makes of every state with the same heap whose
call stack has no limit. -/
def Repeats (R : State → State → Prop) (s s' : State) : Prop :=
  ∀ t : State, t.heap = s.heap → t.stack.maxHeight ≤ 0 →
    ∃ t', R t t' ∧ t'.heap = s'.heap ∧ t'.stack.maxHeight ≤ 0

/-- The environment of a call does not depend on the name the function is called by. -/
theorem heap_opened {s t : State} (h : t.heap = s.heap) (env : EnvId) (name name' : Text)
    (captured : Option EnvId) (bindings : Bindings) :
    (opened env name' captured bindings t).heap = (opened env name captured bindings s).heap := by
  simp only [opened, h]

mutual

/-- **Values do not depend on the frames below.** -/
theorem Evaluates.repeats {env : EnvId} {expr : Value} {s s' : State} {o : Outcome}
    (h : Evaluates env expr s o s') {v : Value} (ho : o = .value v) :
    Repeats (Evaluates env expr · o ·) s s' := by
  intro t ht hlimit
  match h with
  | .number .. => exact ⟨t, .number .., ht, hlimit⟩
  | .closure .. => exact ⟨t, .closure .., ht, hlimit⟩
  | .native .. => exact ⟨t, .native .., ht, hlimit⟩
  | .lambda .. => exact ⟨t, .lambda .., ht, hlimit⟩
  | .bound h => exact ⟨t, .bound (ht ▸ h), ht, hlimit⟩
  | .special hhead hg hcall =>
      obtain ⟨t₁, hhead', ht₁, hlimit₁⟩ := hhead.repeats rfl t ht hlimit
      obtain ⟨t₂, hcall', ht₂, hlimit₂⟩ := hcall.repeats ho _ t₁ ht₁ hlimit₁
      exact ⟨t₂, .special hhead' hg hcall', ht₂, hlimit₂⟩
  | .call hhead hn hvalues hoperands hcall =>
      obtain ⟨t₁, hhead', ht₁, hlimit₁⟩ := hhead.repeats rfl t ht hlimit
      obtain ⟨t₂, hoperands', ht₂, hlimit₂⟩ := hoperands.repeats rfl t₁ ht₁ hlimit₁
      obtain ⟨t₃, hcall', ht₃, hlimit₃⟩ := hcall.repeats ho _ t₂ ht₂ hlimit₂
      exact ⟨t₃, .call hhead' hn hvalues hoperands' hcall', ht₃, hlimit₃⟩
  | .unbound .. => cases ho
  | .invalid .. => cases ho
  | .absent .. => cases ho
  | .emptyCall .. => cases ho
  | .headFails .. => cases ho
  | .notCallable .. => cases ho
  | .arityMismatch .. => cases ho
  | .operandFails .. => cases ho
termination_by structural h

/-- Operands that all have values have the same where the stack has no limit. -/
theorem EvaluatesAll.repeats {env : EnvId} {exprs : List Value} {s s' : State}
    {r : Except Failure (List Value)} (h : EvaluatesAll env exprs s r s') {vs : List Value}
    (hr : r = .ok vs) : Repeats (EvaluatesAll env exprs · r ·) s s' := by
  intro t ht hlimit
  match h with
  | .nil .. => exact ⟨t, .nil .., ht, hlimit⟩
  | .cons h hs =>
      obtain ⟨t₁, h', ht₁, hlimit₁⟩ := h.repeats rfl t ht hlimit
      obtain ⟨t₂, hs', ht₂, hlimit₂⟩ := hs.repeats rfl t₁ ht₁ hlimit₁
      exact ⟨t₂, .cons h' hs', ht₂, hlimit₂⟩
  | .fails .. => cases hr
  | .failsLater .. => cases hr
termination_by structural h

/-- A function that gives a value gives it under any name where the stack has no limit. -/
theorem Invokes.repeats {env : EnvId} {name : Text} {callee : Callee} {args : List Value}
    {s s' : State} {o : Outcome} (h : Invokes env name callee args s o s') {v : Value}
    (ho : o = .value v) (name' : Text) : Repeats (Invokes env name' callee args · o ·) s s' := by
  intro t ht hlimit
  have hroom : t.stack.isFull = false := CallStack.isFull_of_unlimited hlimit
  match h with
  | .closure _ hargs hbody =>
      obtain ⟨t₁, hbody', ht₁, hlimit₁⟩ :=
        hbody.repeats ho _ (heap_opened ht env name name' _ _) hlimit
      rw [← ht] at hbody'
      exact ⟨_, .closure hroom hargs hbody', ht₁, hlimit₁⟩
  | .native _ hn hrule =>
      obtain ⟨t₁, hrule', ht₁, hlimit₁⟩ :=
        hrule.repeats ho (called env ⟨name', false⟩ t) ht hlimit
      exact ⟨_, .native hroom hn hrule', ht₁, hlimit₁⟩
  | .overflow .. => cases ho
  | .absentArgument .. => cases ho
  | .operandCount .. => cases ho
termination_by structural h

/-- A primitive that gives a value gives it where the stack has no limit. -/
theorem Follows.repeats {env : EnvId} {p : Primitive} {args : List Value} {s s' : State}
    {o : Outcome} (h : Follows env p args s o s') {v : Value} (ho : o = .value v) :
    Repeats (Follows env p args · o ·) s s' := by
  intro t ht hlimit
  match h with
  | .answer h => exact ⟨t, .answer h, ht, hlimit⟩
  | .define h hv =>
      obtain ⟨t₁, h', ht₁, hlimit₁⟩ := h.repeats rfl t ht hlimit
      exact ⟨_, .define h' hv, by rw [ht₁], hlimit₁⟩
  | .choose h hbranch =>
      obtain ⟨t₁, h', ht₁, hlimit₁⟩ := h.repeats rfl t ht hlimit
      obtain ⟨t₂, hbranch', ht₂, hlimit₂⟩ := hbranch.repeats ho t₁ ht₁ hlimit₁
      exact ⟨t₂, .choose h' hbranch', ht₂, hlimit₂⟩
  | .apply hhead hoperands hcall =>
      obtain ⟨t₁, hhead', ht₁, hlimit₁⟩ := hhead.repeats rfl t ht hlimit
      obtain ⟨t₂, hoperands', ht₂, hlimit₂⟩ := hoperands.repeats rfl t₁ ht₁ hlimit₁
      obtain ⟨t₃, hcall', ht₃, hlimit₃⟩ := hcall.repeats ho t₂ ht₂ hlimit₂
      exact ⟨t₃, .apply hhead' hoperands' hcall', ht₃, hlimit₃⟩
  | .misused .. => cases ho
  | .emptyList .. => cases ho
  | .absentAsked .. => cases ho
  | .defineAbsent .. => cases ho
  | .defineFails .. => cases ho
  | .notCondition .. => cases ho
  | .conditionFails .. => cases ho
  | .notArguments .. => cases ho
  | .argumentsFail .. => cases ho
  | .functionFails .. => cases ho
termination_by structural h

/-- An application that gives a value gives it where the stack has no limit. -/
theorem Calls.repeats {env : EnvId} {f : Value} {args : List Value} {s s' : State} {o : Outcome}
    (h : Calls env f args s o s') {v : Value} (ho : o = .value v) :
    Repeats (Calls env f args · o ·) s s' := by
  intro t ht hlimit
  match h with
  | .invoke hn hcall =>
      obtain ⟨t₁, hcall', ht₁, hlimit₁⟩ := hcall.repeats ho _ t ht hlimit
      exact ⟨t₁, .invoke hn hcall', ht₁, hlimit₁⟩
  | .notCallable .. => cases ho
  | .arityMismatch .. => cases ho
termination_by structural h

end

theorem EvaluatesAll.length_eq {env : EnvId} {exprs : List Value} {s s' : State}
    {r : Except Failure (List Value)} (h : EvaluatesAll env exprs s r s') {args : List Value}
    (hr : r = .ok args) : args.length = exprs.length := by
  match h with
  | .nil .. =>
      cases hr
      rfl
  | .cons _ hs =>
      cases hr
      rw [List.length_cons, List.length_cons, hs.length_eq rfl]
  | .fails .. => cases hr
  | .failsLater .. => cases hr

/-- A native function that is called gives a value by its rule. -/
theorem Invokes.follows {env : EnvId} {name : Text} {g : Native} {args : List Value} {s s' : State}
    {v : Value} (h : Invokes env name (.native g) args s (.value v) s') :
    ∃ s₁, Follows env g.primitive args (called env ⟨name, false⟩ s) (.value v) s₁ ∧
      s' = returned s₁ := by
  cases h with
  | native _ _ hrule => exact ⟨_, hrule, rfl⟩

/-- A special operator at the head of a call is given the operands. -/
theorem Evaluates.of_special {env : EnvId} {g : Native} {operands : List Value} {s s' : State}
    {v : Value} (h : Evaluates env (.list (.native g :: operands)) s (.value v) s')
    (hg : g.mode = .special) : Invokes env g.name (.native g) operands s (.value v) s' := by
  cases h with
  | special hhead _ hcall =>
      cases hhead
      exact hcall
  | @call _ _ callee _ _ _ _ _ _ _ hhead _ hvalues _ _ =>
      cases callee with
      | closure formals body captured => cases hhead
      | native g' =>
          cases hhead
          simp [Callee.isSpecial, hg] at hvalues

/-- Another native function at the head of a call is given the values of the operands. -/
theorem Evaluates.of_eager {env : EnvId} {g : Native} {operands : List Value} {s s' : State}
    {v : Value} (h : Evaluates env (.list (.native g :: operands)) s (.value v) s')
    (hg : (Callee.native g).isSpecial = false) :
    ∃ args s₁, EvaluatesAll env operands s (.ok args) s₁ ∧
      Invokes env g.name (.native g) args s₁ (.value v) s' := by
  cases h with
  | special hhead hg' _ =>
      cases hhead
      simp [Callee.isSpecial, hg'] at hg
  | @call _ _ callee _ args _ _ s₂ _ _ hhead _ _ hoperands hcall =>
      cases callee with
      | closure formals body captured => cases hhead
      | native g' =>
          cases hhead
          exact ⟨args, s₂, hoperands, hcall⟩

/-- The values of operands are gathered by `list`. -/
theorem EvaluatesAll.gather {env : EnvId} {list : Native} {operands args : List Value} {s s₁ : State}
    (h : EvaluatesAll env operands s (.ok args) s₁) (hlist : list.primitive = .list)
    (heager : (Callee.native list).isSpecial = false) (hroom : s₁.stack.isFull = false) :
    Evaluates env (.list (.native list :: operands)) s (.value (.list args))
      (returned (called env ⟨list.name, false⟩ s₁)) := by
  have hn : list.primitive.Takes args.length := by simp [hlist, Primitive.Takes, Primitive.count?]
  have hanswer : Answers env list.primitive args (.list args) := by
    rw [hlist]
    exact .list args
  have hhead : Evaluates env (.native list) s (.value (Callee.native list).toValue) s :=
    .native env list s
  exact .call hhead trivial heager h (.native hroom hn (.answer hanswer))

/-- What `list` gives are the values of its operands. -/
theorem Evaluates.gathered {env : EnvId} {list : Native} {operands : List Value} {s s' : State}
    {w : Value} (h : Evaluates env (.list (.native list :: operands)) s (.value w) s')
    (hlist : list.primitive = .list) (heager : (Callee.native list).isSpecial = false) :
    ∃ args s₁, EvaluatesAll env operands s (.ok args) s₁ ∧ w = .list args ∧ s'.heap = s₁.heap := by
  obtain ⟨args, s₁, hoperands, hcall⟩ := h.of_eager heager
  obtain ⟨s₂, hrule, rfl⟩ := hcall.follows
  rw [hlist] at hrule
  cases hrule with
  | answer hanswer =>
      cases hanswer
      exact ⟨args, s₁, hoperands, rfl, rfl⟩

section Application

variable {env : EnvId} {apply list : Native} {head v : Value} {operands : List Value} {s s' : State}
  (happly : apply.primitive = .apply) (hlist : list.primitive = .list)
  (hspecial : apply.mode = .special) (heager : (Callee.native list).isSpecial = false)
include happly hlist hspecial heager

/-- A direct application can be made through `apply`. -/
theorem Evaluates.through_apply (hlimit : s.stack.maxHeight ≤ 0)
    (hhead : ∀ g s₁, Evaluates env head s (.value (.native g)) s₁ → g.mode ≠ .special)
    (h : Evaluates env (.list (head :: operands)) s (.value v) s') :
    ∃ t', Evaluates env (.list [.native apply, head, .list (.native list :: operands)]) s
      (.value v) t' ∧ t'.heap = s'.heap := by
  cases h with
  | special hfun hg _ => exact absurd hg (hhead _ _ hfun)
  | @call _ _ callee _ args _ s₁ s₂ _ _ hfun hn hvalues hoperands hcall =>
      -- Under the frame of `apply` the function and the operands have the same values.
      obtain ⟨t₁, hfun', ht₁, hlimit₁⟩ :=
        hfun.repeats rfl (called env ⟨apply.name, false⟩ s) rfl hlimit
      obtain ⟨t₂, hoperands', ht₂, hlimit₂⟩ := hoperands.repeats rfl t₁ ht₁ hlimit₁
      have hgather := hoperands'.gather hlist heager (CallStack.isFull_of_unlimited hlimit₂)
      obtain ⟨t₃, hcall', ht₃, -⟩ := hcall.repeats rfl callee.ownName
        (returned (called env ⟨list.name, false⟩ t₂)) ht₂ hlimit₂
      have hrule : Follows env apply.primitive [head, .list (.native list :: operands)]
          (called env ⟨apply.name, false⟩ s) (.value v) t₃ := by
        rw [happly]
        refine .apply hfun' hgather (.invoke ?_ hcall')
        rwa [hoperands.length_eq rfl]
      have hcount : apply.primitive.Takes [head, .list (.native list :: operands)].length := by
        simp [happly, Primitive.Takes, Primitive.count?]
      exact ⟨_, .special (.native env apply s) hspecial
        (.native (CallStack.isFull_of_unlimited hlimit) hcount hrule), ht₃⟩

/-- What is made through `apply` is a direct application. -/
theorem Evaluates.without_apply (hlimit : s.stack.maxHeight ≤ 0)
    (hhead : ∀ g s₁, Evaluates env head s (.value (.native g)) s₁ → g.mode ≠ .special)
    (h : Evaluates env (.list [.native apply, head, .list (.native list :: operands)]) s
      (.value v) s') :
    ∃ t', Evaluates env (.list (head :: operands)) s (.value v) t' ∧ t'.heap = s'.heap := by
  obtain ⟨s₁, hrule, rfl⟩ := (h.of_special hspecial).follows
  rw [happly] at hrule
  cases hrule with
  | answer hanswer => cases hanswer
  | apply hfun hgather hcall =>
      obtain ⟨args, s₂, hoperands, hargs, hs₂⟩ := hgather.gathered hlist heager
      cases hargs
      cases hcall with
      | @invoke _ callee _ _ _ _ hn hcall =>
          -- Without the frame of `apply` the function and the operands have the same values.
          obtain ⟨t₁, hfun', ht₁, hlimit₁⟩ := hfun.repeats rfl s rfl hlimit
          obtain ⟨t₂, hoperands', ht₂, hlimit₂⟩ := hoperands.repeats rfl t₁ ht₁ hlimit₁
          obtain ⟨t₃, hcall', ht₃, -⟩ :=
            hcall.repeats rfl (callee.callName head) t₂ (ht₂.trans hs₂.symm) hlimit₂
          have hvalues : callee.isSpecial = false := by
            cases callee with
            | closure formals body captured => rfl
            | native g => simpa [Callee.isSpecial] using hhead g t₁ hfun'
          rw [hoperands.length_eq rfl] at hn
          exact ⟨t₃, .call hfun' hn hvalues hoperands' hcall', ht₃⟩

end Application

end Protocol

/-- A primitive of the defaults is special unless it is one of the functions. -/
theorem Native.IsDefault.mode_eq {g : Native} (h : g.IsDefault) :
    g.mode = if g.primitive ∈ Primitive.functions then .eager else .special := by
  obtain ⟨name, mode, p⟩ := g
  obtain ⟨d, hd, hg⟩ := h
  cases mode with
  | eager =>
      obtain ⟨q, hq, rfl⟩ := List.mem_map.mp hd
      cases hg
      exact (if_pos hq).symm
  | special =>
      obtain ⟨q, hq, rfl⟩ := List.mem_map.mp hd
      cases hg
      have hnot : ∀ q ∈ Primitive.specialOperators, q ∉ Primitive.functions := by decide
      exact (if_neg (hnot q hq)).symm

namespace Interpreter

/-- The values that evaluation returns, and the heap it leaves.  Nothing else of the
interpreter changes. -/
theorem exists_eval_value_iff {i i' : Interpreter} {e : EnvId} {expr v : Value} :
    (∃ n ev, i.eval e expr n = some ev ∧ ev.outcome = .value v ∧ ev.interpreter = i') ↔
      ∃ s, Protocol.Evaluates e expr (i.state e) (.value v) s ∧ { i with heap := s.heap } = i' := by
  constructor
  · intro h
    obtain ⟨n, ev, hev, ho, rfl⟩ := h
    obtain ⟨s, heval, -, hi⟩ := exists_eval_iff.mp ⟨n, hev⟩
    rw [ho] at heval
    exact ⟨s, heval, hi.symm⟩
  · intro h
    obtain ⟨s, heval, rfl⟩ := h
    have hev : ∃ n, i.eval e expr n = some ⟨.value v, s.calls, { i with heap := s.heap }⟩ :=
      exists_eval_iff.mpr ⟨s, heval, rfl, rfl⟩
    obtain ⟨n, hev⟩ := hev
    exact ⟨n, _, hev, rfl, rfl⟩

/-- **`apply` agrees with direct application.**  Let the call stack have no limit, and let the
head, if it has a value, not be a special operator.  Then a call returns a value if and only if
`apply`, given the head and a `list` of the operands, returns this value; and the interpreter is
the same after both, with all its environments and what they bind. -/
theorem apply_agrees_with_direct_application (i : Interpreter) (e : EnvId) (head : Value)
    (operands : List Value) {apply list : Native} (happly : apply.IsDefault)
    (hlist : list.IsDefault) (hisApply : apply.primitive = .apply) (hisList : list.primitive = .list)
    (hlimit : (i.stackOf e).maxHeight ≤ 0)
    (hhead : ∀ n ev f, i.eval e head n = some ev → ev.outcome = .value f →
      f.isSpecialOperator = false) (v : Value) (i' : Interpreter) :
    (∃ n ev, i.eval e (.list (head :: operands)) n = some ev ∧ ev.outcome = .value v ∧
      ev.interpreter = i') ↔
    ∃ n ev, i.eval e (.list [.native apply, head, .list (.native list :: operands)]) n = some ev ∧
      ev.outcome = .value v ∧ ev.interpreter = i' := by
  have hspecial : apply.mode = .special := by
    rw [happly.mode_eq, hisApply]
    rfl
  have heager : (Callee.native list).isSpecial = false := by
    rw [Callee.isSpecial, hlist.mode_eq, hisList]
    rfl
  have hnot : ∀ g s, Protocol.Evaluates e head (i.state e) (.value (.native g)) s →
      g.mode ≠ .special := by
    intro g s hg
    obtain ⟨n, ev, hev, ho, -⟩ := exists_eval_value_iff.mpr ⟨s, hg, rfl⟩
    have hfalse := hhead n ev _ hev ho
    intro hmode
    simp [Value.isSpecialOperator, hmode] at hfalse
  rw [exists_eval_value_iff, exists_eval_value_iff]
  constructor
  · intro h
    obtain ⟨s, heval, hi⟩ := h
    obtain ⟨t, heval', hheap⟩ := heval.through_apply hisApply hisList hspecial heager hlimit hnot
    exact ⟨t, heval', by rw [hheap, hi]⟩
  · intro h
    obtain ⟨s, heval, hi⟩ := h
    obtain ⟨t, heval', hheap⟩ := heval.without_apply hisApply hisList hspecial heager hlimit hnot
    exact ⟨t, heval', by rw [hheap, hi]⟩

/-- A closure is applied to an operand that defines a name. -/
theorem apply_to_a_definition :
    ∃ i : Interpreter, i = ((empty.newUser [.maxHeight 0]).2.define 0 "f"
        (.closure ["x"] (.symbol "x") (some 0))) ∧ (i.stackOf 0).maxHeight ≤ 0 ∧
      ∃ v i', (∃ n ev, i.eval 0 (.list [.symbol "f", .list [.symbol "def", .symbol "y", .symbol "f"]])
          n = some ev ∧ ev.outcome = .value v ∧ ev.interpreter = i') ∧
        ∃ n ev, i.eval 0 (.list [.native ⟨"apply", .special, .apply⟩, .symbol "f",
            .list [.native ⟨"list", .eager, .list⟩,
              .list [.symbol "def", .symbol "y", .symbol "f"]]]) n = some ev ∧
          ev.outcome = .value v ∧ ev.interpreter = i' := by
  generalize hi : (empty.newUser [.maxHeight 0]).2.define 0 "f"
    (.closure ["x"] (.symbol "x") (some 0)) = i
  have hreturns : ∃ ev, i.eval 0 (.list [.symbol "f",
      .list [.symbol "def", .symbol "y", .symbol "f"]]) 100 = some ev ∧
      (ev.outcome matches .value _) = true := by
    rw [← Option.any_eq_true, ← hi]
    decide +kernel
  have hlimit : (i.stackOf 0).maxHeight ≤ 0 := by
    rw [← hi]
    decide +kernel
  have hhead : ∀ n ev f, i.eval 0 (.symbol "f") n = some ev → ev.outcome = .value f →
      f.isSpecialOperator = false := by
    intro n ev f hev ho
    have hall : (i.heap.lookup 0 "f").all (! ·.isSpecialOperator) = true := by
      rw [← hi]
      decide +kernel
    obtain ⟨s, heval, -⟩ := exists_eval_iff.mp ⟨n, hev⟩
    rw [ho] at heval
    cases heval with
    | bound h =>
        rw [show i.heap.lookup 0 "f" = some f from h] at hall
        simpa using hall
  obtain ⟨ev, hev, hvalue⟩ := hreturns
  have hdirect : ∃ v, ev.outcome = .value v := by
    cases ho : ev.outcome with
    | value v => exact ⟨v, rfl⟩
    | failure f => simp [ho] at hvalue
  obtain ⟨v, ho⟩ := hdirect
  refine ⟨i, rfl, hlimit, v, ev.interpreter, ⟨100, ev, hev, ho, rfl⟩, ?_⟩
  exact (apply_agrees_with_direct_application i 0 (.symbol "f")
    [.list [.symbol "def", .symbol "y", .symbol "f"]] ⟨.ofPrimitive .apply, by decide, rfl⟩
    ⟨.ofPrimitive .list, by decide, rfl⟩ rfl rfl hlimit hhead v ev.interpreter).mp
    ⟨100, ev, hev, ho, rfl⟩

end Interpreter

end LexLisp
