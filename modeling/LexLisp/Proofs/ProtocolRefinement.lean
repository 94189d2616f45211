import LexLisp.Proofs.CallProtocol

/-!
# The machine follows the call protocol

A run of the machine that ends is cut up into the runs of the expressions it evaluates and the
functions it enters: `Config.Passes n c k R` says that a run from `c` of at most `n` steps, if
it ends at all, comes to the pending work `k` with an outcome and a state that `R` relates.
By induction on the steps, expressions pass with what the protocol says of them
(`Protocol.simulates`).  Together with `Protocol.Evaluates.reaches`, the evaluations that
return are exactly those of the protocol.
-/

namespace LexLisp

namespace Config

/-- A run of `n` steps, if it ends, gets to the pending work `k` on its way, with an outcome
and a state as `R` says. -/
def Passes (n : Nat) (c : Config) (k : List Pending) (R : Outcome → State → Prop) : Prop :=
  ∀ r, run n c = some r → ∃ o s m, m ≤ n ∧ R o s ∧ run m ⟨.done o, k, s⟩ = some r

namespace Passes

variable {n : Nat} {c : Config} {k : List Pending} {R Q : Outcome → State → Prop}

theorem done {o : Outcome} {s : State} (h : R o s) : Passes n ⟨.done o, k, s⟩ k R := by
  intro r hr
  exact ⟨o, s, n, Nat.le_refl n, h, hr⟩

theorem mono (h : Passes n c k R) (hRQ : ∀ o s, R o s → Q o s) : Passes n c k Q := by
  intro r hr
  obtain ⟨o, s, m, hm, hR, hrun⟩ := h r hr
  exact ⟨o, s, m, hm, hRQ o s hR, hrun⟩

/-- A configuration that is not at its end makes a step. -/
theorem step (hc : run 0 c = none) (h : ∀ m, m < n → Passes m c.step k R) : Passes n c k R := by
  intro r hr
  cases n with
  | zero =>
      rw [hc] at hr
      cases hr
  | succ n =>
      rw [run_succ] at hr
      obtain ⟨o, s, m, hm, hR, hrun⟩ := h n (Nat.lt_succ_self n) r hr
      exact ⟨o, s, m, Nat.le_succ_of_le hm, hR, hrun⟩

/-- Where work is pending, the run goes on with it. -/
theorem next {p : Pending} (h : Passes n c (p :: k) R)
    (hnext : ∀ o s m, m < n → R o s → Passes m (Machine.hand o p k s) k Q) : Passes n c k Q := by
  intro r hr
  obtain ⟨o, s, m, hm, hR, hrun⟩ := h r hr
  cases m with
  | zero => cases hrun
  | succ m =>
      rw [run_succ] at hrun
      obtain ⟨o', s', m', hm', hQ, hrun'⟩ := hnext o s m hm hR r hrun
      exact ⟨o', s', m', by omega, hQ, hrun'⟩

/-- A value goes to the work that awaits it, a failure passes it by. -/
theorem resume {p : Pending} (h : Passes n c (p :: k) R) (hp : p.isLeave = false)
    (hfail : ∀ f s, R (.failure f) s → Q (.failure f) s)
    (hvalue : ∀ v s m, m < n → R (.value v) s → Passes m (Machine.resume v p k s) k Q) :
    Passes n c k Q := by
  apply h.next
  intro o s m hm hR
  cases o with
  | value v => exact hvalue v s m hm hR
  | failure f =>
      cases p with
      | leave => cases hp
      | _ => exact done (hfail f s hR)

/-- An open call is left with whatever outcome it has. -/
theorem leave (h : Passes n c (.leave :: k) R)
    (hR : ∀ o s, R o s → s.stack.height ≠ 0 ∧ Q o (Protocol.returned s)) : Passes n c k Q := by
  apply h.next
  intro o s m _ ho
  obtain ⟨hheight, hQ⟩ := hR o s ho
  rw [Machine.hand_leave o k hheight]
  exact done hQ

end Passes

end Config

namespace Protocol

open Config

/-- An evaluation ends with the call stack it began with. -/
theorem Evaluates.stack_eq {env : EnvId} {expr : Value} {s s' : State} {o : Outcome}
    (h : Evaluates env expr s o s') : s'.stack = s.stack :=
  stack_eq_of_reaches (Interpreter.eval_goesOn env expr s) (h.reaches [])

/-- A primitive leaves the call stack as it was. -/
theorem Follows.stack_eq {env : EnvId} {p : Primitive} {args : List Value} {s s' : State}
    {o : Outcome} (h : Follows env p args s o s') : s'.stack = s.stack :=
  stack_eq_of_reaches (Machine.follow_goesOn env [] s p args) (h.reaches [])

/-- Runs of `n` steps evaluate expressions and enter functions as the protocol says. -/
structure Simulates (n : Nat) : Prop where
  eval : ∀ env expr k s, Passes n ⟨.eval env expr, k, s⟩ k (Evaluates env expr s)
  enter : ∀ env name callee args k s,
    Passes n ⟨.enter env name callee args, k, s⟩ k (Invokes env name callee args s)

/-- To evaluate the operands that are left and then enter the function. -/
def Completes (env : EnvId) (name : Text) (callee : Callee) (done todo : List Value) (s : State)
    (o : Outcome) (s' : State) : Prop :=
  (∃ f, EvaluatesAll env todo s (.error f) s' ∧ o = .failure f) ∨
    ∃ args s₁, EvaluatesAll env todo s (.ok args) s₁ ∧
      Invokes env name callee (done.reverse ++ args) s₁ o s'

/-- An absent argument has a first one before which all are given. -/
theorem exists_given {args : List Value} (h : args.any Value.isAbsent = true) :
    ∃ given others, args = given ++ .absent :: others ∧ given.any Value.isAbsent = false := by
  induction args with
  | nil => cases h
  | cons v args ih =>
      by_cases hv : v.isAbsent = true
      · obtain rfl := Value.eq_absent hv
        exact ⟨[], args, rfl, rfl⟩
      · rw [List.any_cons, Bool.or_eq_true] at h
        obtain ⟨given, others, rfl, hgiven⟩ := ih (h.resolve_left hv)
        exact ⟨v :: given, others, rfl, by simpa [hgiven] using hv⟩

/-- The elements of a list are all of one shape, or there is a first that is not. -/
theorem exists_map_or {α : Type} (f : α → Value) (vs : List Value) :
    (∃ xs : List α, vs = xs.map f) ∨
      ∃ (xs : List α) (v : Value) (others : List Value),
        vs = xs.map f ++ v :: others ∧ ∀ x, v ≠ f x := by
  induction vs with
  | nil => exact Or.inl ⟨[], rfl⟩
  | cons v vs ih =>
      by_cases hv : ∃ x, v = f x
      · obtain ⟨x, rfl⟩ := hv
        rcases ih with ⟨xs, rfl⟩ | ⟨xs, w, others, rfl, hw⟩
        · exact Or.inl ⟨x :: xs, rfl⟩
        · exact Or.inr ⟨x :: xs, w, others, rfl, hw⟩
      · exact Or.inr ⟨[], v, vs, rfl, fun x hx => hv ⟨x, hx⟩⟩

section Steps

variable {n : Nat} (hsim : ∀ m, m ≤ n → Simulates m) (env : EnvId) (k : List Pending)

/-- A primitive that evaluates nothing gives its answer. -/
theorem passes_answer {p : Primitive} {args : List Value} {v : Value}
    (h : Answers env p args v) (s : State) (m : Nat) :
    Passes m (Machine.follow env p args k s) k (Follows env p args s) := by
  rw [Machine.follow_answers h]
  exact .done (.answer h)

/-- A primitive that is misused complains. -/
theorem passes_misused {p : Primitive} {args : List Value} {expected : Expectation} {v : Value}
    (h : Misuses p args expected v) (s : State) (m : Nat) :
    Passes m (Machine.follow env p args k s) k (Follows env p args s) := by
  rw [Machine.follow_misuses h]
  exact .done (.misused h)

/-- The question whether a value is a number is answered, if there is a value. -/
theorem passes_isNumber (v : Value) (s : State) (m : Nat) :
    Passes m (Machine.follow env .isNumber [v] k s) k (Follows env .isNumber [v] s) := by
  cases v with
  | number x => exact passes_answer env k (.number x) s m
  | absent => exact .done (.absentAsked (Or.inl rfl))
  | _ => exact passes_answer env k (.notNumber (by simp) (by simp)) s m

/-- The question whether a value is a symbol is answered, if there is a value. -/
theorem passes_isSymbol (v : Value) (s : State) (m : Nat) :
    Passes m (Machine.follow env .isSymbol [v] k s) k (Follows env .isSymbol [v] s) := by
  cases v with
  | symbol name => exact passes_answer env k (.symbol name) s m
  | absent => exact .done (.absentAsked (Or.inr rfl))
  | _ => exact passes_answer env k (.notSymbol (by simp) (by simp)) s m

/-- The primitives that take a list apart follow their rules whatever they are given. -/
theorem passes_nonEmpty {p : Primitive} (hp : p = .first ∨ p = .rest) (v : Value) (s : State)
    (m : Nat) : Passes m (Machine.follow env p [v] k s) k (Follows env p [v] s) := by
  cases v with
  | list cells =>
      cases cells with
      | nil =>
          rcases hp with hp | hp
          · subst hp
            exact .done (.emptyList (Or.inl rfl))
          · subst hp
            exact .done (.emptyList (Or.inr rfl))
      | cons v others =>
          rcases hp with hp | hp
          · subst hp
            exact passes_answer env k (.first v others) s m
          · subst hp
            exact passes_answer env k (.rest v others) s m
  | _ => exact passes_misused env k (.list hp (by simp)) s m

include hsim

/-- The machine evaluates operands and enters the function as the rules say. -/
theorem passes_evalOperands (name : Text) (callee : Callee) (done todo : List Value) (s : State)
    {m : Nat} (hm : m ≤ n) :
    Passes m (Machine.evalOperands env name callee done todo k s) k
      (Completes env name callee done todo s) := by
  induction todo generalizing done s m with
  | nil =>
      refine ((hsim m hm).enter env name callee done.reverse k s).mono ?_
      intro o s' h
      exact Or.inr ⟨[], s, .nil env s, by rwa [List.append_nil]⟩
  | cons expr others ih =>
      refine ((hsim m hm).eval env expr _ s).resume rfl ?_ ?_
      · intro f s' h
        exact Or.inl ⟨f, .fails h, rfl⟩
      · intro v s₁ m' hm' h
        refine (ih (v :: done) s₁ (by omega)).mono ?_
        intro o s' hrest
        rcases hrest with ⟨f, hf, ho⟩ | ⟨args, s₂, hargs, hcall⟩
        · exact Or.inl ⟨f, .failsLater h hf, ho⟩
        · refine Or.inr ⟨v :: args, s₂, .cons h hargs, ?_⟩
          rwa [List.reverse_cons, List.append_assoc, List.singleton_append] at hcall

/-- A call that evaluates its operands. -/
theorem passes_eager {head : Value} {callee : Callee} {operands : List Value} {s s₁ : State}
    (hhead : Evaluates env head s (.value callee.toValue) s₁) (hn : callee.Takes operands.length)
    (hvalues : callee.isSpecial = false) {m : Nat} (hm : m ≤ n) :
    Passes m (Machine.callHead env head callee.toValue operands k s₁) k
      (Evaluates env (.list (head :: operands)) s) := by
  rw [callHead_eager env head hn hvalues]
  refine (passes_evalOperands hsim env k _ callee [] operands s₁ hm).mono ?_
  intro o s' hrest
  rcases hrest with ⟨f, hf, ho⟩ | ⟨args, s₂, hargs, hcall⟩
  · subst ho
    exact .operandFails hhead hn hvalues hf
  · exact .call hhead hn hvalues hargs hcall

/-- The machine calls the head of a form as the rules say. -/
theorem passes_callHead {head f : Value} {s s₁ : State} (operands : List Value)
    (hhead : Evaluates env head s (.value f) s₁) {m : Nat} (hm : m ≤ n) :
    Passes m (Machine.callHead env head f operands k s₁) k
      (Evaluates env (.list (head :: operands)) s) := by
  cases f with
  | closure formals body captured =>
      by_cases hn : operands.length = formals.length
      · have hcallee : (Callee.closure formals body captured).Takes operands.length := hn
        exact passes_eager hsim env k hhead hcallee rfl hm
      · simp only [Machine.callHead, Callee.ofValue?, Callee.arityError?, if_neg hn]
        exact .done (.arityMismatch hhead hn)
  | native g =>
      cases hg : (Callee.native g).isSpecial with
      | true =>
          have hmode : g.mode = .special := by simpa [Callee.isSpecial] using hg
          rw [callHead_special env head hmode]
          refine ((hsim m hm).enter env _ _ operands k s₁).mono ?_
          intro o s' hcall
          exact .special hhead hmode hcall
      | false =>
          have hcallee : (Callee.native g).Takes operands.length := trivial
          exact passes_eager hsim env k hhead hcallee hg hm
  | _ =>
      simp only [Machine.callHead, Callee.ofValue?, Machine.refuse_about]
      exact .done (.notCallable hhead rfl)

/-- The machine applies a value as the rules say. -/
theorem passes_callValue (f : Value) (args : List Value) (s : State) {m : Nat} (hm : m ≤ n) :
    Passes m (Machine.callValue env f (.list args) k s) k (Calls env f args s) := by
  have hinvoke : ∀ callee : Callee, callee.Takes args.length →
      Passes m (Machine.callValue env callee.toValue (.list args) k s) k
        (Calls env callee.toValue args s) := by
    intro callee hn
    rw [callValue_toValue env hn]
    refine ((hsim m hm).enter env _ callee args k s).mono ?_
    intro o s' hcall
    exact .invoke hn hcall
  cases f with
  | closure formals body captured =>
      by_cases hn : args.length = formals.length
      · exact hinvoke (.closure formals body captured) hn
      · simp only [Machine.callValue, Callee.ofValue?, Callee.arityError?, if_neg hn]
        exact .done (.arityMismatch hn)
  | native g => exact hinvoke (.native g) trivial
  | _ =>
      simp only [Machine.callValue, Callee.ofValue?, Machine.refuse_about]
      exact .done (.notCallable rfl)

/-- The machine makes a definition as the rules say. -/
theorem passes_define (name : Text) (expr : Value) (s : State) {m : Nat} (hm : m ≤ n) :
    Passes m (Machine.follow env .define [.symbol name, expr] k s) k
      (Follows env .define [.symbol name, expr] s) := by
  refine ((hsim m hm).eval env expr (.define env name :: k) s).resume rfl ?_ ?_
  · intro f s' h
    exact .defineFails h
  · intro v s₁ m' _ h
    simp only [Machine.resume]
    split
    · rename_i hv
      exact .done (.defineAbsent h hv)
    · rename_i hv
      exact .done (.define h (by simpa using hv))

/-- The machine chooses as the rules say. -/
theorem passes_choose (condition yes no : Value) (s : State) {m : Nat} (hm : m ≤ n) :
    Passes m (Machine.follow env .choose [condition, yes, no] k s) k
      (Follows env .choose [condition, yes, no] s) := by
  refine ((hsim m hm).eval env condition (.choose env yes no :: k) s).resume rfl ?_ ?_
  · intro f s' h
    exact .conditionFails h
  · intro v s₁ m' hm' h
    by_cases hv : ∃ x, v = .number x
    · obtain ⟨x, rfl⟩ := hv
      refine ((hsim m' (by omega)).eval env (if x.isZero then no else yes) k s₁).mono ?_
      intro o s' hbranch
      exact .choose h hbranch
    · have hnumber : ∀ x, v ≠ .number x := fun x hx => hv ⟨x, hx⟩
      rw [resume_notCondition hnumber]
      exact .done (.notCondition h hnumber)

/-- The machine applies a function to a computed list as the rules say. -/
theorem passes_apply (head operands : Value) (s : State) {m : Nat} (hm : m ≤ n) :
    Passes m (Machine.follow env .apply [head, operands] k s) k
      (Follows env .apply [head, operands] s) := by
  refine ((hsim m hm).eval env head (.applied env operands :: k) s).resume rfl ?_ ?_
  · intro f s' h
    exact .functionFails h
  · intro f s₁ m₁ hm₁ hhead
    refine ((hsim m₁ (by omega)).eval env operands (.arguments env f :: k) s₁).resume rfl ?_ ?_
    · intro f' s' h
      exact .argumentsFail hhead h
    · intro v s₂ m₂ hm₂ hoperands
      by_cases hv : ∃ args, v = .list args
      · obtain ⟨args, rfl⟩ := hv
        refine (passes_callValue hsim env k f args s₂ (by omega)).mono ?_
        intro o s' hcall
        exact .apply hhead hoperands hcall
      · have hlist : ∀ cells, v ≠ .list cells := fun cells hx => hv ⟨cells, hx⟩
        rw [resume_notArguments hlist]
        exact .done (.notArguments hhead hoperands hlist)

/-- Every primitive follows its rule, for as many operands as it takes. -/
theorem passes_follow {p : Primitive} {args : List Value} (hn : p.Takes args.length) (s : State)
    {m : Nat} (hm : m ≤ n) : Passes m (Machine.follow env p args k s) k (Follows env p args s) := by
  cases p with
  | quote =>
      obtain ⟨expr, rfl⟩ := List.length_eq_one_iff.mp (hn 1 rfl)
      exact passes_answer env k (.quote expr) s m
  | define =>
      obtain ⟨v, expr, rfl⟩ := List.length_eq_two.mp (hn 2 rfl)
      by_cases hv : ∃ name, v = .symbol name
      · obtain ⟨name, rfl⟩ := hv
        exact passes_define hsim env k name expr s hm
      · exact passes_misused env k (.name expr fun name hx => hv ⟨name, hx⟩) s m
  | function =>
      obtain ⟨v, body, rfl⟩ := List.length_eq_two.mp (hn 2 rfl)
      by_cases hv : ∃ cells, v = .list cells
      · obtain ⟨cells, rfl⟩ := hv
        rcases exists_map_or .symbol cells with ⟨names, rfl⟩ | ⟨names, w, others, rfl, hw⟩
        · exact passes_answer env k (.function names body) s m
        · exact passes_misused env k (.formal names others body hw) s m
      · exact passes_misused env k (.formals body fun cells hx => hv ⟨cells, hx⟩) s m
  | choose =>
      obtain ⟨condition, yes, no, rfl⟩ := List.length_eq_three.mp (hn 3 rfl)
      exact passes_choose hsim env k condition yes no s hm
  | apply =>
      obtain ⟨head, operands, rfl⟩ := List.length_eq_two.mp (hn 2 rfl)
      exact passes_apply hsim env k head operands s hm
  | isNumber =>
      obtain ⟨v, rfl⟩ := List.length_eq_one_iff.mp (hn 1 rfl)
      exact passes_isNumber env k v s m
  | isSymbol =>
      obtain ⟨v, rfl⟩ := List.length_eq_one_iff.mp (hn 1 rfl)
      exact passes_isSymbol env k v s m
  | add =>
      rcases exists_map_or .number args with ⟨xs, rfl⟩ | ⟨xs, v, others, rfl, hv⟩
      · exact passes_answer env k (.add xs) s m
      · exact passes_misused env k (.addend xs others hv) s m
  | list => exact passes_answer env k (.list args) s m
  | first =>
      obtain ⟨v, rfl⟩ := List.length_eq_one_iff.mp (hn 1 rfl)
      exact passes_nonEmpty env k (Or.inl rfl) v s m
  | rest =>
      obtain ⟨v, rfl⟩ := List.length_eq_one_iff.mp (hn 1 rfl)
      exact passes_nonEmpty env k (Or.inr rfl) v s m

/-- The machine runs a function that was entered as the rules say. -/
theorem passes_runCallee (name : Text) (callee : Callee) (args : List Value) {s : State}
    (hroom : s.stack.isFull = false) {m : Nat} (hm : m ≤ n) :
    Passes m (Machine.runCallee env callee args (.leave :: k)
      (called env ⟨name, callee.isClosure⟩ s)) k (Invokes env name callee args s) := by
  cases callee with
  | closure formals body captured =>
      simp only [Machine.runCallee]
      split
      · rename_i hargs
        obtain ⟨given, others, rfl, hgiven⟩ := exists_given hargs
        rw [bindFormals_absent _ _ hgiven]
        refine Passes.leave (.done (R := fun o s' => o = _ ∧ s' = _) ⟨rfl, rfl⟩) ?_
        intro o s' h
        obtain ⟨rfl, rfl⟩ := h
        exact ⟨CallStack.height_ne_zero rfl, .absentArgument hroom hgiven⟩
      · rename_i hargs
        have hargs : args.any Value.isAbsent = false := by simpa using hargs
        rw [bindFormals_eq hargs]
        refine Passes.leave ((hsim m hm).eval _ body _ _) ?_
        intro o s' hbody
        exact ⟨CallStack.height_ne_zero hbody.stack_eq, .closure hroom hargs hbody⟩
  | native g =>
      rw [Machine.runCallee, Machine.perform]
      by_cases hn : g.primitive.Takes args.length
      · rw [if_pos (Primitive.accepts_iff.mpr hn)]
        refine Passes.leave (passes_follow hsim env _ hn _ hm) ?_
        intro o s' hrule
        exact ⟨CallStack.height_ne_zero hrule.stack_eq, .native hroom hn hrule⟩
      · rw [if_neg (Primitive.accepts_iff.not.mpr hn)]
        refine Passes.leave (.done (R := fun o s' => o = _ ∧ s' = _) ⟨rfl, rfl⟩) ?_
        intro o s' h
        obtain ⟨rfl, rfl⟩ := h
        exact ⟨CallStack.height_ne_zero rfl, .operandCount hroom hn⟩

end Steps

/-- **Runs of any length follow the protocol.**  The induction is on the steps: whatever an
expression or a call evaluates on its way has fewer of them left. -/
theorem simulates (n : Nat) : Simulates n := by
  induction n using Nat.strongRecOn with
  | _ n ih =>
      have hbelow : ∀ m, m < n → ∀ j, j ≤ m → Simulates j :=
        fun m hm j hj => ih j (Nat.lt_of_le_of_lt hj hm)
      constructor
      · intro env expr k s
        refine Passes.step rfl ?_
        intro m hm
        cases expr with
        | symbol name =>
            cases hlookup : s.heap.lookup env name with
            | some v =>
                simp only [step, Machine.eval, hlookup]
                exact .done (.bound hlookup)
            | none =>
                simp only [step, Machine.eval, hlookup]
                exact .done (.unbound hlookup)
        | list cells =>
            cases cells with
            | nil => exact .done (.emptyCall env s)
            | cons head operands =>
                refine ((ih m hm).eval env head (.operator env head operands :: k) s).resume rfl ?_ ?_
                · intro f s' h
                  exact .headFails h
                · intro f s₁ m' hm' hhead
                  exact passes_callHead (hbelow m hm) env k operands hhead (by omega)
        | lambda formals body => exact .done (.lambda env formals body s)
        | number x => exact .done (.number env x s)
        | closure formals body captured => exact .done (.closure env formals body captured s)
        | native g => exact .done (.native env g s)
        | invalid code => exact .done (.invalid env code s)
        | absent => exact .done (.absent env s)
      · intro env name callee args k s
        refine Passes.step rfl ?_
        intro m hm
        cases hfull : s.stack.isFull with
        | true =>
            simp only [step, Machine.enter, hfull, if_true]
            exact .done (.overflow hfull)
        | false =>
            rw [enter_room hfull]
            exact passes_runCallee (hbelow m hm) env k name callee args hfull (Nat.le_refl m)

end Protocol

namespace Bindings

/-- Of bindings added one by one the last of a name is found, before those that were
there. -/
theorem find?_foldl_insert (pairs : List (Text × Value)) (bs : Bindings) (name : Text) :
    (pairs.foldl (fun bs (name, v) => bs.insert name v) bs).find? name =
      (pairs.reverse.lookup name).or (bs.find? name) := by
  induction pairs generalizing bs with
  | nil => rfl
  | cons pair pairs ih =>
      obtain ⟨n, v⟩ := pair
      rw [List.foldl_cons, ih, List.reverse_cons, List.lookup_append, Option.or_assoc]
      congr 1
      by_cases hname : name = n
      · simp [hname]
      · have hne : (name == n) = false := beq_eq_false_iff_ne.mpr hname
        rw [find?_insert_of_ne hname, List.lookup_cons, hne]
        rfl

/-- Among equal names the last one counts. -/
theorem find?_ofPairs (pairs : List (Text × Value)) (name : Text) :
    (ofPairs pairs).find? name = pairs.reverse.lookup name := by
  rw [ofPairs, find?_foldl_insert, find?_nil, Option.or_none]

end Bindings

/-- An evaluation has restored the call stack, so of the interpreter it leaves only the heap is
another. -/
theorem Protocol.Evaluates.withState_eq {i : Interpreter} {e : EnvId} {expr : Value} {s : State}
    {o : Outcome} (h : Evaluates e expr (i.state e) o s) : i.withState e s = ⟨s.heap, i.sessions⟩ := by
  have hstack : s.stack = i.stackOf e := h.stack_eq
  rw [Interpreter.withState, hstack, Interpreter.setStack_stackOf]

/-- The evaluations that return are those of the protocol. -/
theorem Interpreter.exists_eval_iff {i : Interpreter} {e : EnvId} {expr : Value} {ev : Evaluation} :
    (∃ n, i.eval e expr n = some ev) ↔
      ∃ s, Protocol.Evaluates e expr (i.state e) ev.outcome s ∧ ev.calls = s.calls ∧
        ev.interpreter = ⟨s.heap, i.sessions⟩ := by
  constructor
  · intro h
    obtain ⟨n, h⟩ := h
    obtain ⟨o, s, hrun, rfl⟩ := run_eq_some_iff.mp h
    obtain ⟨o', s', m, -, heval, hend⟩ := (Protocol.simulates n).eval e expr [] _ _ hrun
    rw [Config.run_done] at hend
    cases hend
    exact ⟨s, heval, rfl, heval.withState_eq⟩
  · intro h
    obtain ⟨s, heval, hcalls, hi⟩ := h
    obtain ⟨n, hrun⟩ := (heval.reaches []).exists_run
    refine ⟨n, run_eq_some_iff.mpr ⟨ev.outcome, s, hrun, ?_⟩⟩
    rw [heval.withState_eq, ← hcalls, ← hi]

/-- **The evaluator refines the call protocol.**  An evaluation returns, with an outcome, a log
of calls and an interpreter, if and only if the protocol, begun with the heap of the interpreter,
the call stack of the session and an empty log, gives this outcome in a state with this log and
with the heap that is left; its call stack is then the one at the beginning, and all sessions are
as they were.  Among formals of one name the last one counts. -/
theorem eval_refines_call_protocol (i : Interpreter) (e : EnvId) (expr : Value) (ev : Evaluation) :
    ((∃ n, i.eval e expr n = some ev) ↔
      ∃ s, Protocol.Evaluates e expr ⟨i.heap, i.stackOf e, #[]⟩ ev.outcome s ∧
        s.calls = ev.calls ∧ s.heap = ev.interpreter.heap ∧ s.stack = i.stackOf e ∧
        ev.interpreter.sessions = i.sessions) ∧
    ∀ (formals : List Text) (args : List Value) (name : Text),
      (Bindings.ofPairs (formals.zip args)).find? name =
        (formals.zip args).reverse.lookup name := by
  refine ⟨Interpreter.exists_eval_iff.trans ⟨?_, ?_⟩,
    fun formals args => Bindings.find?_ofPairs (formals.zip args)⟩
  · intro h
    obtain ⟨s, heval, hcalls, hi⟩ := h
    rw [hi]
    exact ⟨s, heval, hcalls.symm, rfl, heval.stack_eq, rfl⟩
  · intro h
    obtain ⟨s, heval, hcalls, hheap, -, hsessions⟩ := h
    exact ⟨s, heval, hcalls.symm, by rw [hheap, ← hsessions]⟩

end LexLisp
