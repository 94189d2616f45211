import LexLisp.Proofs.Lockstep
import LexLisp.Proofs.ValueInvariant

/-!
# Lexical scope

An evaluation sees the environment it is made in with its parents, and what the
closures have captured that it meets on its way.  All these environments can be
found before it begins (`Heap.Reachable`), and they stay the same but for those that
the evaluation itself creates: what is bound elsewhere makes no difference, neither to
the outcome nor to what is done on the way.

The body of a closure is evaluated below the environment that was captured, not
below the caller's.  So a call reaches only what the closure and its arguments
reach, whoever makes it.
-/

namespace LexLisp

namespace Value

/-- A closure over the environment occurs in the value. -/
inductive Captures : Value → EnvId → Prop
  | here (formals : List Text) (body : Value) (a : EnvId) :
      Captures (closure formals body (some a)) a
  | inClosure {formals : List Text} {body : Value} {env : Option EnvId} {a : EnvId}
      (h : Captures body a) : Captures (closure formals body env) a
  | inLambda {formals : List Text} {body : Value} {a : EnvId} (h : Captures body a) :
      Captures (lambda formals body) a
  | inList {cells : List Value} {v : Value} {a : EnvId} (hv : v ∈ cells) (h : Captures v a) :
      Captures (list cells) a

/-- If the value is a closure, it is one over an environment of `D`. -/
def ClosesOver (D : EnvId → Prop) (v : Value) : Prop :=
  ∀ formals body a, v = closure formals body (some a) → D a

mutual

/-- Whatever a value captures is captured by one of its parts. -/
theorem everywhere_closesOver {D : EnvId → Prop} :
    ∀ {v : Value}, (∀ a, v.Captures a → D a) → v.Everywhere (ClosesOver D)
  | list _, h => by
      refine ⟨fun _ _ _ heq => Value.noConfusion heq, everywhereIn_closesOver ?_⟩
      exact fun v hv a ha => h a (.inList hv ha)
  | lambda _ _, h => by
      refine ⟨fun _ _ _ heq => Value.noConfusion heq, everywhere_closesOver ?_⟩
      exact fun a ha => h a (.inLambda ha)
  | closure _ _ _, h => by
      refine ⟨?_, everywhere_closesOver fun a ha => h a (.inClosure ha)⟩
      rintro formals body a heq
      exact h a (heq ▸ .here formals body a)
  | symbol _, _ | number _, _ | native _, _ | invalid _, _ | absent, _ =>
      fun _ _ _ heq => Value.noConfusion heq

theorem everywhereIn_closesOver {D : EnvId → Prop} :
    ∀ {vs : List Value}, (∀ v ∈ vs, ∀ a, v.Captures a → D a) → EverywhereIn (ClosesOver D) vs
  | [], _ => trivial
  | _ :: _, h => ⟨everywhere_closesOver (h _ List.mem_cons_self),
      everywhereIn_closesOver fun v hv => h v (List.mem_cons_of_mem _ hv)⟩

end

/-- What holds everywhere of closures holds of all that is captured. -/
theorem closesOver_of_everywhere {D : EnvId → Prop} {v : Value} {a : EnvId}
    (h : v.Everywhere (ClosesOver D)) (ha : v.Captures a) : D a := by
  induction ha with
  | here formals body a => exact h.1 formals body a rfl
  | inClosure _ ih => exact ih h.2
  | inLambda _ ih => exact ih h.2
  | inList hv _ ih => exact ih (everywhereIn_iff.mp h.2 _ hv)

end Value

/-- Work in environments of `D`, to which all that are created belong, and with
closures over such. -/
def Policy.reaching (D : EnvId → Prop) (since : Nat) (hD : ∀ a, since ≤ a → D a) : Policy where
  since := since
  home _ := D
  ok _ := Value.ClosesOver D
  home_succ := by
    intro n a hn
    refine ⟨Or.inr, ?_⟩
    rintro (rfl | ha)
    · exact hD a hn
    · exact ha
  ok_succ _ h := h
  symbol _ _ := fun _ _ _ heq => Value.noConfusion heq
  number _ _ := fun _ _ _ heq => Value.noConfusion heq
  list _ _ := fun _ _ _ heq => Value.noConfusion heq
  closure _ _ h := by
    rintro formals body a heq
    cases heq
    exact h
  captured h := h _ _ _ rfl

namespace Heap

/-- The environments that can be reached from some environments and values: these
environments, the parents of those reached, and the ones captured in the values or
in what is bound in those reached. -/
inductive Reachable (h : Heap) (envs : List EnvId) (vs : List Value) : EnvId → Prop
  | env {e : EnvId} (he : e ∈ envs) : Reachable h envs vs e
  | value {v : Value} {a : EnvId} (hv : v ∈ vs) (ha : v.Captures a) : Reachable h envs vs a
  | parent {a p : EnvId} (ha : Reachable h envs vs a) (hp : h.parent? a = some p) :
      Reachable h envs vs p
  | bound {a p : EnvId} {b : Text × Value} (ha : Reachable h envs vs a) (hb : b ∈ h.bindings a)
      (hp : b.2.Captures p) : Reachable h envs vs p

/-- What can be reached, and all that may still be created. -/
def Scope (h : Heap) (envs : List EnvId) (vs : List Value) (a : EnvId) : Prop :=
  h.Reachable envs vs a ∨ h.size ≤ a

variable {D : EnvId → Prop} {h h' : Heap} {e : EnvId}

/-- Nothing leads out of the environments that can be reached. -/
theorem obeys_reaching (h : Heap) (envs : List EnvId) (vs : List Value) :
    h.Obeys (.reaching (h.Scope envs vs) h.size fun _ => Or.inr) := by
  intro a ha
  rcases ha with hreach | hnew
  · refine ⟨?_, fun p hp => Or.inl (.parent hreach hp)⟩
    exact fun b hb => Value.everywhere_closesOver fun p hp => Or.inl (.bound hreach hb hp)
  · rw [bindings_of_size_le hnew, parent?_of_size_le hnew]
    exact ⟨fun b hb => (List.not_mem_nil hb).elim, fun p hp => (Option.some_ne_none p hp.symm).elim⟩

/-- The heaps have as many environments, and those of `D` have the same parents and
bind the same names to the same values. -/
structure AgreesOn (D : EnvId → Prop) (h h' : Heap) : Prop where
  size : h'.size = h.size
  parent : ∀ a, D a → h'.parent? a = h.parent? a
  bound : ∀ a, D a → ∀ name, (h'.bindings a).find? name = (h.bindings a).find? name

namespace AgreesOn

/-- Environments that are in neither heap make no difference. -/
theorem scope {envs : List EnvId} {vs : List Value} (hagree : AgreesOn (h.Reachable envs vs) h h') :
    AgreesOn (h.Scope envs vs) h h' := by
  have hsize := hagree.size
  refine ⟨hsize, ?_, ?_⟩
  · rintro a (ha | ha)
    · exact hagree.parent a ha
    · rw [parent?_of_size_le ha, parent?_of_size_le (hsize ▸ ha)]
  · rintro a (ha | ha)
    · exact hagree.bound a ha
    · rw [bindings_of_size_le ha, bindings_of_size_le (hsize ▸ ha)]
      exact fun _ => rfl

/-- Heaps that agree on a chain of environments have the same chain there. -/
theorem chain (hagree : AgreesOn D h h') (he : ∀ a ∈ h.chain e, D a) : h'.chain e = h.chain e := by
  fun_induction Heap.chain h e with
  | case1 e p hp hlt ih =>
      have hp' : h'.parent? e = some p := (hagree.parent e (he e List.mem_cons_self)).trans hp
      rw [Heap.chain, hp']
      simp only [hlt, if_true]
      rw [ih fun a ha => he a (List.mem_cons_of_mem _ ha)]
  | case2 e p hp hge =>
      have hp' : h'.parent? e = some p := (hagree.parent e (he e List.mem_cons_self)).trans hp
      rw [Heap.chain, hp']
      simp only [hge, if_false]
  | case3 e hp =>
      have hp' : h'.parent? e = none := (hagree.parent e (he e List.mem_cons_self)).trans hp
      rw [Heap.chain, hp']

/-- A name is found alike from an environment whose chain stays in `D`. -/
theorem lookup (hagree : AgreesOn D h h') (he : ∀ a ∈ h.chain e, D a) (name : Text) :
    h'.lookup e name = h.lookup e name := by
  rw [Heap.lookup, Heap.lookup, hagree.chain he]
  generalize h.chain e = envs at he
  induction envs with
  | nil => rfl
  | cons a rest ih =>
      rw [List.findSome?_cons, List.findSome?_cons, hagree.bound a (he a List.mem_cons_self) name,
        ih fun b hb => he b (List.mem_cons_of_mem _ hb)]

/-- A definition made in both heaps keeps them in agreement. -/
theorem define (hagree : AgreesOn D h h') (e : EnvId) (name : Text) (v : Value) :
    AgreesOn D (h.define e name v) (h'.define e name v) := by
  refine ⟨by simpa using hagree.size, ?_, ?_⟩
  · intro a ha
    rw [parent?_define, parent?_define]
    exact hagree.parent a ha
  · intro a ha other
    rw [find?_define, find?_define, hagree.size, hagree.bound a ha other]

/-- New environments agree if they have the same parent and bind the same names,
in whichever sessions they are. -/
theorem push (hagree : AgreesOn D h h') (parent : Option EnvId) (sid sid' : SessionId)
    (bindings : Bindings) :
    AgreesOn D (h.push ⟨parent, sid, bindings⟩) (h'.push ⟨parent, sid', bindings⟩) := by
  have hsize := hagree.size
  refine ⟨by rw [Array.size_push, Array.size_push, hsize], ?_, ?_⟩
  · intro a ha
    by_cases hnew : a = h.size
    · rw [hnew, parent?_push_self, ← hsize, parent?_push_self]
    · rw [parent?_push_of_ne h _ hnew, parent?_push_of_ne h' _ (hsize ▸ hnew)]
      exact hagree.parent a ha
  · intro a ha name
    by_cases hnew : a = h.size
    · rw [hnew, bindings_push_self, ← hsize, bindings_push_self]
    · rw [bindings_push_of_ne h _ hnew, bindings_push_of_ne h' _ (hsize ▸ hnew)]
      exact hagree.bound a ha name

end AgreesOn

end Heap

/-- Outcomes that are the same with a copy of the same call stack are the same. -/
theorem Outcome.SameUpTo.eq {o o' : Outcome} (h : o.SameUpTo (fun st st' => st' = st) o') :
    o' = o := by
  cases h with
  | value v => rfl
  | panic p => rfl
  | error cause hst => rw [hst]

/-- The logs are equally long, and the same but for the first call. -/
def Machine.SameButFirst (l l' : Array Call) : Prop :=
  l'.size = l.size ∧ l'.toList.tail = l.toList.tail

/-- Logs that differ in their first call only still do so after one call more. -/
theorem Machine.SameButFirst.push {l l' : Array Call} (call : Call) (h : SameButFirst l l') :
    SameButFirst (l.push call) (l'.push call) := by
  obtain ⟨l⟩ := l
  obtain ⟨l'⟩ := l'
  obtain ⟨hsize, htail⟩ := h
  refine ⟨by simpa using hsize, ?_⟩
  cases l <;> cases l' <;> simp_all

/-- A relation between the logs of two runs that lasts when both make the same
call. -/
structure LogRelation where
  rel : Array Call → Array Call → Prop
  push : ∀ {l l'} call, rel l l' → rel (l.push call) (l'.push call)

namespace LogRelation

def same : LogRelation where
  rel := Eq
  push call h := congrArg (Array.push · call) h

def sameButFirst : LogRelation where
  rel := Machine.SameButFirst
  push := Machine.SameButFirst.push

end LogRelation

/-- How much of a heap is looked at: heaps that agree cannot be told apart by work
done where `home` allows it. -/
structure View where
  home : Heap → EnvId → Prop
  agree : Heap → Heap → Prop
  size : ∀ {h h'}, agree h h' → h'.size = h.size
  lookup : ∀ {h h' env}, agree h h' → home h env →
    ∀ name, h'.lookup env name = h.lookup env name
  define : ∀ {h h'}, agree h h' →
    ∀ env name v, agree (h.define env name v) (h'.define env name v)
  create : ∀ {h h'}, agree h h' → ∀ env captured bindings,
    agree (h.push ⟨captured, h.sessionOf env, bindings⟩)
      (h'.push ⟨captured, h'.sessionOf env, bindings⟩)

namespace View

/-- Nothing is seen but the environments of `D`. -/
def within (D : EnvId → Prop) : View where
  home h e := ∀ a ∈ h.chain e, D a
  agree := Heap.AgreesOn D
  size h := h.size
  lookup h he name := h.lookup he name
  define h env name v := h.define env name v
  create h _ captured bindings := h.push captured _ _ bindings

/-- The whole heap is seen. -/
def whole : View where
  home _ _ := True
  agree h h' := h' = h
  size h := by rw [h]
  lookup h _ _ := by rw [h]
  define h _ _ _ := by rw [h]
  create h _ _ _ := by rw [h]

/-- Work on the same call stack and on heaps that agree, with related logs. -/
def lockstep (V : View) (logs : LogRelation) : Lockstep where
  home := V.home
  rel s s' := s'.stack = s.stack ∧ V.agree s.heap s'.heap ∧ logs.rel s.calls s'.calls
  copy st st' := st' = st
  stack h := h.1
  height h := by rw [h.1]
  size h := V.size h.2.1
  lookup h henv := V.lookup h.2.1 henv
  define h _ name v := ⟨h.1, V.define h.2.1 _ name v, h.2.2⟩
  create h _ captured bindings := ⟨h.1, V.create h.2.1 _ captured bindings, h.2.2⟩
  pushFrame h env frame := by
    simp only [Machine.pushFrame, h.1]
    exact ⟨trivial, h.2.1, logs.push _ h.2.2⟩
  pop h := ⟨congrArg CallStack.pop h.1, h.2⟩

variable {V : View} {logs : LogRelation}

/-- States seen alike have room for a call together or not at all. -/
theorem sameRoom {s s' : State} (h : (V.lockstep logs).rel s s') :
    Lockstep.SameRoom s s' := by
  refine ⟨?_, fun _ => ?_⟩
  · rw [h.1]
  · rw [h.1]

/-- Two runs that cannot be told apart end alike, or both go on. -/
theorem run_same {I : Config → Prop} (hstep : ∀ c, I c → I c.step)
    (hhome : ∀ c, I c → ∀ a ∈ c.envs, V.home c.state.heap a) (n : Nat) {c c' : Config} (hc : I c)
    (h : (V.lockstep logs).Related c c') :
    Option.Rel (fun r r' => r'.1 = r.1 ∧ r'.2.stack = r.2.stack ∧ V.agree r.2.heap r'.2.heap ∧
        logs.rel r.2.calls r'.2.calls) (Config.run n c) (Config.run n c') := by
  have hrel := Lockstep.run_related hstep hhome (fun s s' => sameRoom) n hc h
  generalize Config.run n c = r, Config.run n c' = r' at hrel
  cases hrel with
  | none => exact .none
  | some hr => exact .some ⟨hr.1.eq, hr.2⟩

end View

namespace Machine

variable {formals : List Text} {body : Value} {captured : Option EnvId}

/-- The call of a closure is refused at once, wherever it is made, or enters the closure
there. -/
theorem callValue_closure (formals : List Text) (body : Value) (captured : Option EnvId)
    (args : Value) :
    (∃ refusal, ∀ env s, callValue env (.closure formals body captured) args [] s =
      refuse refusal [] s) ∨
    ∃ cells, args = .list cells ∧
      ∀ env s, callValue env (.closure formals body captured) args [] s =
        ⟨.enter env "<anonymous>" (.closure formals body captured) cells, [], s⟩ := by
  cases args with
  | list cells =>
      cases harity : (Callee.closure formals body captured).arityError? cells.length with
      | some cause =>
          refine Or.inl ⟨.error cause, fun env s => ?_⟩
          simp only [callValue, Callee.ofValue?, harity]
          rfl
      | none =>
          refine Or.inr ⟨cells, rfl, fun env s => ?_⟩
          simp [callValue, Callee.ofValue?, harity, Callee.ownName]
  | _ => exact Or.inl ⟨.about .argumentsNotList _, fun env s => rfl⟩

/-- A closure that is entered works in a fresh environment only. -/
theorem enter_closure_worksFrom (env : EnvId) (name : Text) (args : List Value) (s : State) :
    WorksFrom s.heap.size s.heap (enter env name (.closure formals body captured) args [] s) := by
  have hrefl : Heap.Evolves s.heap.size s.heap s.heap := Heap.Evolves.refl s.heap
  unfold enter
  split
  · exact ⟨hrefl, by simp [fail, Control.env?]⟩
  · simp only [runCallee]
    split
    · exact ⟨hrefl.push _, by simp [giveUp, Control.env?, Pending.env?]⟩
    · refine ⟨hrefl.push _, ?_⟩
      intro a ha
      exact Or.inl (by simpa [Control.env?, Pending.env?, pushFrame] using ha)

/-- A closure may be entered from anywhere, if it and its arguments are allowed. -/
theorem enter_closure_holds {π : Policy} (env : EnvId) (name : Text) {args : List Value}
    {s : State} (hsince : π.since ≤ s.heap.size) (hobeys : s.heap.Obeys π)
    (hclosure : π.Good s.heap.size (.closure formals body captured))
    (hargs : ∀ v ∈ args, π.Good s.heap.size v) :
    Config.Holds π (enter env name (.closure formals body captured) args [] s) := by
  unfold enter
  split
  · exact ⟨hsince, hobeys, by simp [fail, Control.env?], fail_all [] s (by simp) _⟩
  · exact runClosure_holds (s := pushFrame env _ s) hsince hobeys (by simp [Pending.env?]) hclosure
      hargs (by simp [Pending.values])

/-- Entering a closure makes no difference to what is seen, from wherever the call
is made. -/
theorem enter_closure_related {V : View} {s s' : State} {env env' : EnvId} (name : Text)
    (args : List Value) (hstack : s'.stack = s.stack) (hheap : V.agree s.heap s'.heap)
    (hcalls : s.calls = #[]) (hcalls' : s'.calls = #[])
    (hcreate : ∀ bindings, V.agree (s.heap.push ⟨captured, s.heap.sessionOf env, bindings⟩)
      (s'.heap.push ⟨captured, s'.heap.sessionOf env', bindings⟩)) :
    (V.lockstep .sameButFirst).Related
      (enter env name (.closure formals body captured) args [] s)
      (enter env' name (.closure formals body captured) args [] s') := by
  have hlogs : ∀ call call', SameButFirst (s.calls.push call) (s'.calls.push call') := by
    intro call call'
    simp [hcalls, hcalls', SameButFirst]
  unfold enter
  rw [hstack]
  split
  · refine ⟨.done (.error _ hstack), rfl, hstack, hheap, ?_⟩
    rw [fail, fail, hcalls, hcalls']
    exact ⟨rfl, rfl⟩
  · have hstate : ∀ frame bindings, (V.lockstep .sameButFirst).rel
        { pushFrame env frame s with
          heap := s.heap.push ⟨captured, s.heap.sessionOf env, bindings⟩ }
        { pushFrame env' frame s' with
          heap := s'.heap.push ⟨captured, s'.heap.sessionOf env', bindings⟩ } := by
      intro frame bindings
      exact ⟨congrArg (CallStack.push · frame) hstack, hcreate bindings, hlogs _ _⟩
    simp only [runCallee]
    split
    · exact ⟨.done (.panic _), rfl, hstate _ _⟩
    · have hsize : s'.heap.size = s.heap.size := V.size hheap
      simp only [pushFrame, hsize]
      exact ⟨.eval _ body, rfl, hstate _ _⟩

end Machine

namespace Evaluation

/-- An evaluation in `e` has changed nothing that was there, but for the bindings of
the environments `own`, and what it has created is in the session of `e`. -/
structure ChangesOnly (own : EnvId → Prop) (i : Interpreter) (e : EnvId) (ev : Evaluation) :
    Prop where
  sessions : ev.interpreter.sessions = i.sessions
  parent : ∀ a < i.heap.size, ev.interpreter.heap.parent? a = i.heap.parent? a
  session : ∀ a < i.heap.size, ev.interpreter.heap.sessionOf a = i.heap.sessionOf a
  bindings : ∀ a < i.heap.size, ¬ own a → ev.interpreter.heap.bindings a = i.heap.bindings a
  created : ∀ a, i.heap.size ≤ a → a < ev.interpreter.heap.size →
    ev.interpreter.heap.sessionOf a = i.heap.sessionOf e

end Evaluation

namespace Interpreter

variable {i i' : Interpreter} {e e' : EnvId} {n : Nat} {ev : Evaluation}

/-- An evaluation changes no bindings but those of its environment. -/
theorem eval_changesOnly {expr : Value} (he : e < i.heap.size) (h : i.eval e expr n = some ev) :
    ev.ChangesOnly (· = e) i e := by
  have hev := run_evolves (eval_goesOn e expr) h
  exact ⟨run_sessions_eq (eval_goesOn e expr) h, hev.parent, hev.session, hev.others,
    run_created (eval_goesOn e expr) he h⟩

variable {formals : List Text} {body : Value} {captured : Option EnvId} {args : Value}

/-- The call of a closure leaves all bindings as they are, even those of the
caller. -/
theorem call_closure_evolves (h : i.call e (.closure formals body captured) args n = some ev) :
    Heap.Evolves i.heap.size i.heap ev.interpreter.heap := by
  obtain ⟨outcome, s, hrun, rfl⟩ := run_eq_some_iff.mp h
  rcases Machine.callValue_closure formals body captured args with
    ⟨refusal, hrefuse⟩ | ⟨cells, -, henter⟩
  · rw [hrefuse, Machine.refuse, Config.run_done] at hrun
    cases hrun
    exact Heap.Evolves.refl i.heap
  · rw [henter] at hrun
    cases n with
    | zero => cases hrun
    | succ n =>
        rw [Config.run_succ] at hrun
        exact (Config.run_invariant (fun c hc => Machine.WorksFrom.step hc)
          (Machine.enter_closure_worksFrom e _ cells (i.state e)) hrun).evolves

/-- A call of a closure changes nothing that was there. -/
theorem call_closure_changesOnly (he : e < i.heap.size)
    (h : i.call e (.closure formals body captured) args n = some ev) :
    ev.ChangesOnly (fun _ => False) i e := by
  have hstart := fun s => Machine.callValue_goesOn e [] s (.closure formals body captured) args
  have hev := call_closure_evolves h
  exact ⟨run_sessions_eq hstart h, hev.parent, hev.session,
    fun a ha _ => hev.others a ha (Nat.ne_of_lt ha), run_created hstart he h⟩

/-- What holds of the results of two runs of the machine holds of the evaluations
they make up. -/
theorem rel_run {start start' : State → Config} {R : Outcome × State → Outcome × State → Prop}
    {Q : Evaluation → Evaluation → Prop}
    (h : Option.Rel R ((start (i.state e)).run n) ((start' (i'.state e')).run n))
    (hQ : ∀ {r r'}, R r r' → i.run e start n = some ⟨r.1, r.2.calls, i.withState e r.2⟩ →
      i'.run e' start' n = some ⟨r'.1, r'.2.calls, i'.withState e' r'.2⟩ →
      Q ⟨r.1, r.2.calls, i.withState e r.2⟩ ⟨r'.1, r'.2.calls, i'.withState e' r'.2⟩) :
    Option.Rel Q (i.run e start n) (i'.run e' start' n) := by
  cases hr : (start (i.state e)).run n <;> cases hr' : (start' (i'.state e')).run n <;>
    rw [hr, hr'] at h <;> cases h
  case none.none =>
      rw [run, run, hr, hr']
      exact .none
  case some.some r r' h =>
      have hrun := run_eq_some_iff.mpr ⟨r.1, r.2, hr, rfl⟩
      have hrun' := run_eq_some_iff.mpr ⟨r'.1, r'.2, hr', rfl⟩
      rw [hrun, hrun']
      exact .some (hQ h hrun hrun')

/-- Work begun on the same call stack and on heaps that agree wherever it can get to
cannot tell them apart. -/
theorem run_agrees {D : EnvId → Prop} {hD : ∀ a, i.heap.size ≤ a → D a}
    {logs : LogRelation} {c c' : Config} {base : CallStack}
    (hholds : c.Holds (.reaching D i.heap.size hD)) (hbalanced : Balanced base c)
    (h : ((View.within D).lockstep logs).Related c c') (n : Nat) :
    Option.Rel (fun r r' => r'.1 = r.1 ∧ r'.2.stack = r.2.stack ∧ r.2.heap.AgreesOn D r'.2.heap ∧
      logs.rel r.2.calls r'.2.calls) (Config.run n c) (Config.run n c') := by
  refine View.run_same (V := View.within D)
    (I := fun c => c.Holds (.reaching D i.heap.size hD) ∧ Balanced base c)
    (fun c hc => ⟨hc.1.step hc.2, hc.2.step⟩) ?_ n ⟨hholds, hbalanced⟩ h
  exact fun c hc a ha => hc.1.heap.chain (hc.1.envs a ha)

/-- Evaluations in heaps that agree on what they can reach do the same. -/
theorem eval_agrees {expr : Value} (he : e < i.heap.size) (hstack : i'.stackOf e = i.stackOf e)
    (hagree : i.heap.AgreesOn (i.heap.Reachable [e] [expr]) i'.heap) (n : Nat) :
    Option.Rel (fun ev ev' => ev'.outcome = ev.outcome ∧ ev'.calls = ev.calls ∧
        ev.interpreter.heap.AgreesOn (i.heap.Scope [e] [expr]) ev'.interpreter.heap ∧
        ev.ChangesOnly (· = e) i e ∧ ev'.ChangesOnly (· = e) i' e)
      (i.eval e expr n) (i'.eval e expr n) := by
  have he' : e < i'.heap.size := hagree.size ▸ he
  have hon := eval_goesOn e expr (i.state e)
  have hholds : Config.Holds (.reaching (i.heap.Scope [e] [expr]) i.heap.size fun _ => Or.inr)
      ⟨.eval e expr, [], i.state e⟩ := by
    refine hon.holds (Nat.le_refl _) (i.heap.obeys_reaching [e] [expr])
      (Or.inl (.env List.mem_cons_self)) (Config.all_mk.mpr ⟨?_, by simp⟩)
    intro v hv
    exact Value.everywhere_closesOver fun a ha => Or.inl (.value hv ha)
  have hrel : ((View.within (i.heap.Scope [e] [expr])).lockstep .same).Related
      ⟨.eval e expr, [], i.state e⟩ ⟨.eval e expr, [], i'.state e⟩ :=
    ⟨.eval e expr, rfl, hstack, hagree.scope, rfl⟩
  refine rel_run (run_agrees hholds hon.balanced hrel n) ?_
  intro r r' hsame hev hev'
  exact ⟨hsame.1, hsame.2.2.2.symm, hsame.2.2.1, eval_changesOnly he hev,
    eval_changesOnly he' hev'⟩

/-- Two calls of a closure that are refused at once are refused alike, and else they do
what they do once the closure is entered. -/
theorem rel_call_closure {R : Outcome × State → Outcome × State → Prop}
    (hrefuse : ∀ refusal : Refusal, R (.failure (refusal.failure (i.stackOf e)), i.state e)
      (.failure (refusal.failure (i'.stackOf e')), i'.state e'))
    (henter : ∀ cells n, args = .list cells → Option.Rel R
      ((Machine.enter e "<anonymous>" (.closure formals body captured) cells [] (i.state e)).run n)
      ((Machine.enter e' "<anonymous>" (.closure formals body captured) cells []
        (i'.state e')).run n))
    (n : Nat) :
    Option.Rel R
      ((Machine.callValue e (.closure formals body captured) args [] (i.state e)).run n)
      ((Machine.callValue e' (.closure formals body captured) args [] (i'.state e')).run n) := by
  rcases Machine.callValue_closure formals body captured args with
    ⟨refusal, hcall⟩ | ⟨cells, hcells, hcall⟩
  · rw [hcall, hcall, Machine.refuse, Machine.refuse, Config.run_done, Config.run_done]
    exact .some (hrefuse refusal)
  · rw [hcall, hcall]
    cases n with
    | zero => exact .none
    | succ n => exact henter cells n hcells

/-- Calls of a closure in heaps that agree on what the closure and the arguments reach
do the same. -/
theorem call_agrees (he : e < i.heap.size) (he' : e' < i'.heap.size)
    (hstack : i'.stackOf e' = i.stackOf e)
    (hagree : i.heap.AgreesOn
      (i.heap.Reachable [] [.closure formals body captured, args]) i'.heap) (n : Nat) :
    Option.Rel (fun ev ev' => ev'.outcome = ev.outcome ∧
        Machine.SameButFirst ev.calls ev'.calls ∧
        ev.interpreter.heap.AgreesOn (i.heap.Scope [] [.closure formals body captured, args])
          ev'.interpreter.heap ∧
        ev.ChangesOnly (fun _ => False) i e ∧ ev'.ChangesOnly (fun _ => False) i' e')
      (i.call e (.closure formals body captured) args n)
      (i'.call e' (.closure formals body captured) args n) := by
  have hgood : ∀ v ∈ [.closure formals body captured, args], v.Everywhere
      (Value.ClosesOver (i.heap.Scope [] [.closure formals body captured, args])) :=
    fun v hv => Value.everywhere_closesOver fun a ha => Or.inl (.value hv ha)
  refine rel_run (rel_call_closure (R := fun r r' => r'.1 = r.1 ∧ r'.2.stack = r.2.stack ∧
    r.2.heap.AgreesOn (i.heap.Scope [] [.closure formals body captured, args]) r'.2.heap ∧
    Machine.SameButFirst r.2.calls r'.2.calls) ?_ ?_ n) ?_
  · intro cause
    exact ⟨by rw [hstack], hstack, hagree.scope, rfl, rfl⟩
  · rintro cells n rfl
    have hcells := hgood (.list cells) (by simp)
    have hbalanced := (Machine.GoesOn.balanced (e := e) (s := i.state e)
      (c := ⟨.enter e "<anonymous>" (.closure formals body captured) cells, [], i.state e⟩)
      ⟨rfl, rfl, by simp [Control.env?]⟩).step
    have hholds := Machine.enter_closure_holds (s := i.state e)
      (π := .reaching (i.heap.Scope [] [.closure formals body captured, .list cells]) i.heap.size
        fun _ => Or.inr) e "<anonymous>" (Nat.le_refl _) (i.heap.obeys_reaching [] _)
      (hgood _ List.mem_cons_self) (Value.everywhereIn_iff.mp hcells.2)
    have hrel : ((View.within (i.heap.Scope []
        [.closure formals body captured, .list cells])).lockstep .sameButFirst).Related
        (Machine.enter e "<anonymous>" (.closure formals body captured) cells [] (i.state e))
        (Machine.enter e' "<anonymous>" (.closure formals body captured) cells [] (i'.state e')) :=
      Machine.enter_closure_related _ cells hstack hagree.scope rfl rfl
        fun bindings => hagree.scope.push _ _ _ bindings
    exact run_agrees hholds hbalanced hrel n
  · intro r r' hsame hev hev'
    exact ⟨hsame.1, hsame.2.2.2, hsame.2.2.1, call_closure_changesOnly he hev,
      call_closure_changesOnly he' hev'⟩

/-- Calls of a closure from two environments of a session do the same to the same
interpreter. -/
theorem call_from_same_session (hsession : i.heap.sessionOf e' = i.heap.sessionOf e) (n : Nat) :
    Option.Rel (fun ev ev' => ev'.outcome = ev.outcome ∧ ev'.interpreter = ev.interpreter)
      (i.call e (.closure formals body captured) args n)
      (i.call e' (.closure formals body captured) args n) := by
  have hstack : i.stackOf e' = i.stackOf e := by simp only [stackOf, session?, hsession]
  refine rel_run (rel_call_closure (R := fun r r' => r'.1 = r.1 ∧ r'.2.stack = r.2.stack ∧
    r'.2.heap = r.2.heap ∧ Machine.SameButFirst r.2.calls r'.2.calls) ?_ ?_ n) ?_
  · intro cause
    exact ⟨by rw [hstack], hstack, rfl, rfl, rfl⟩
  · intro cells n _
    have hrel : (View.whole.lockstep .sameButFirst).Related
        (Machine.enter e "<anonymous>" (.closure formals body captured) cells [] (i.state e))
        (Machine.enter e' "<anonymous>" (.closure formals body captured) cells []
          (i.state e')) := by
      refine Machine.enter_closure_related _ cells hstack rfl rfl rfl fun bindings => ?_
      show i.heap.push _ = i.heap.push _
      rw [state, state, hsession]
    exact View.run_same (I := fun _ => True) (fun _ _ => trivial) (fun _ _ _ _ => trivial) n trivial
      hrel
  · rintro ⟨outcome, s⟩ ⟨outcome', s'⟩ ⟨hout, hstack', hheap, -⟩ - -
    refine ⟨hout, ?_⟩
    dsimp only at hstack' hheap ⊢
    simp only [withState, setStack, modifySession, hsession, hstack', hheap]

/-- **Lexical scope.**  Two interpreters may differ in whatever an evaluation cannot
reach: if they have as many environments, the same call stack for `e`, and agree on
the parents and bindings of what can be reached from `e` and the expression, then the
evaluation has the same outcome in both, makes the same calls, creates the same
environments and makes the same changes.

A call of a closure reaches what the closure and its arguments reach, and nothing of
its caller.  From two environments of one session it does the very same. -/
theorem evaluation_sees_only_what_it_reaches (i i' : Interpreter) :
    (∀ e expr n, e < i.heap.size → i'.stackOf e = i.stackOf e →
      i.heap.AgreesOn (i.heap.Reachable [e] [expr]) i'.heap →
      Option.Rel (fun ev ev' => ev'.outcome = ev.outcome ∧ ev'.calls = ev.calls ∧
          ev.interpreter.heap.AgreesOn (i.heap.Scope [e] [expr]) ev'.interpreter.heap ∧
          ev.ChangesOnly (· = e) i e ∧ ev'.ChangesOnly (· = e) i' e)
        (i.eval e expr n) (i'.eval e expr n)) ∧
    (∀ e e' formals body captured args n, e < i.heap.size → e' < i'.heap.size →
      i'.stackOf e' = i.stackOf e →
      i.heap.AgreesOn (i.heap.Reachable [] [.closure formals body captured, args]) i'.heap →
      Option.Rel (fun ev ev' => ev'.outcome = ev.outcome ∧
          Machine.SameButFirst ev.calls ev'.calls ∧
          ev.interpreter.heap.AgreesOn (i.heap.Scope [] [.closure formals body captured, args])
            ev'.interpreter.heap ∧
          ev.ChangesOnly (fun _ => False) i e ∧ ev'.ChangesOnly (fun _ => False) i' e')
        (i.call e (.closure formals body captured) args n)
        (i'.call e' (.closure formals body captured) args n)) ∧
    (∀ e e' formals body captured args n, i.heap.sessionOf e' = i.heap.sessionOf e →
      Option.Rel (fun ev ev' => ev'.outcome = ev.outcome ∧ ev'.interpreter = ev.interpreter)
        (i.call e (.closure formals body captured) args n)
        (i.call e' (.closure formals body captured) args n)) := by
  refine ⟨?_, ?_, ?_⟩
  · exact fun e expr n he hstack hagree => eval_agrees he hstack hagree n
  · exact fun e e' _ _ _ _ n he he' hstack hagree => call_agrees he he' hstack hagree n
  · exact fun e e' _ _ _ _ n hsession => call_from_same_session hsession n

/-- A closure over the root that looks up `x`, which is bound in the root and once
more in a child of it. -/
def shadowing (inner : Value) : Interpreter where
  heap := #[⟨none, 0, [("f", .closure [] (.symbol "x") (some 0)), ("x", .symbol "outer")]⟩,
    ⟨some 0, 0, [("x", inner)]⟩]
  sessions := #[⟨.empty 10, true⟩]

/-- Nothing leads from the root to its child. -/
theorem reachable_shadowing {inner : Value} {envs : List EnvId} {vs : List Value} {a : EnvId}
    (henvs : ∀ e ∈ envs, e = 0) (hvs : ∀ v ∈ vs, ∀ p, v.Captures p → p = 0)
    (h : (shadowing inner).heap.Reachable envs vs a) : a = 0 := by
  induction h with
  | env he => exact henvs _ he
  | value hv ha => exact hvs _ hv _ ha
  | parent _ hp ih =>
      subst ih
      cases hp
  | bound _ hb hp ih =>
      subst ih
      simp only [shadowing, Heap.bindings, List.getElem?_toArray, List.getElem?_cons_zero,
        Option.map_some, Option.getD_some, List.mem_cons, List.not_mem_nil, or_false] at hb
      rcases hb with rfl | rfl
      · cases hp with
        | here => rfl
        | inClosure hp => cases hp
      · cases hp

/-- The two interpreters differ only in what the root does not lead to. -/
theorem shadowing_agrees {envs : List EnvId} {vs : List Value} (henvs : ∀ e ∈ envs, e = 0)
    (hvs : ∀ v ∈ vs, ∀ p, v.Captures p → p = 0) (inner inner' : Value) :
    (shadowing inner).heap.AgreesOn ((shadowing inner).heap.Reachable envs vs)
      (shadowing inner').heap := by
  refine ⟨rfl, ?_, ?_⟩
  · intro a ha
    rw [reachable_shadowing henvs hvs ha]
    rfl
  · intro a ha name
    rw [reachable_shadowing henvs hvs ha]
    rfl

/-- Two runs that are related both end if one of them does. -/
theorem exists_of_rel {R : Evaluation → Evaluation → Prop} {r r' : Option Evaluation}
    (h : Option.Rel R r r') (hr : r.isSome) : ∃ ev ev', r = some ev ∧ r' = some ev' ∧ R ev ev' := by
  cases h with
  | none => cases hr
  | some h => exact ⟨_, _, rfl, rfl, h⟩

/-- The closure is called in the root and from the child, whose own binding may be
this or that. -/
theorem inner_binding_is_not_seen :
    ∃ i i' f, i = shadowing (.symbol "this") ∧ i' = shadowing (.symbol "that") ∧
      f = .closure [] (.symbol "x") (some 0) ∧
      (∃ ev ev', i.eval 0 (.list [.symbol "f"]) 20 = some ev ∧
        i'.eval 0 (.list [.symbol "f"]) 20 = some ev' ∧ ev'.outcome = ev.outcome ∧
        ev'.calls = ev.calls) ∧
      (∃ ev ev', i.call 1 f (.list []) 20 = some ev ∧ i'.call 1 f (.list []) 20 = some ev' ∧
        ev'.outcome = ev.outcome) ∧
      ∃ ev ev', i.call 0 f (.list []) 20 = some ev ∧ i.call 1 f (.list []) 20 = some ev' ∧
        ev'.outcome = ev.outcome ∧ ev'.interpreter = ev.interpreter := by
  have hscope := evaluation_sees_only_what_it_reaches (shadowing (.symbol "this"))
    (shadowing (.symbol "that"))
  have hroot : ∀ inner inner', (shadowing inner').stackOf 0 = (shadowing inner).stackOf 0 :=
    fun _ _ => rfl
  have hchild : ∀ inner inner', (shadowing inner').stackOf 1 = (shadowing inner).stackOf 1 :=
    fun _ _ => rfl
  have hf : ∀ p, (Value.closure [] (.symbol "x") (some 0)).Captures p → p = 0 := by
    rintro p (_ | ⟨⟨⟩⟩)
    rfl
  have hnames : ∀ (names : List Text) p, (Value.list (names.map .symbol)).Captures p → p = 0 := by
    rintro names p (_ | _ | _ | ⟨hv, hp⟩)
    obtain ⟨name, -, rfl⟩ := List.mem_map.mp hv
    cases hp
  have heval := hscope.1 0 (.list [.symbol "f"]) 20 (by decide) (hroot _ _)
    (shadowing_agrees (by simp) (by simpa using hnames ["f"]) _ _)
  have hcall := hscope.2.1 1 1 [] (.symbol "x") (some 0) (.list []) 20 (by decide)
    (by decide) (hchild _ _)
    (shadowing_agrees (by simp) (by simpa using ⟨hf, hnames []⟩) _ _)
  have hcallers := hscope.2.2 0 1 [] (.symbol "x") (some 0) (.list []) 20 rfl
  obtain ⟨ev₁, ev₁', h₁, h₁', hout₁, hcalls₁, -⟩ := exists_of_rel heval (by decide +kernel)
  obtain ⟨ev₂, ev₂', h₂, h₂', hout₂, -⟩ := exists_of_rel hcall (by decide +kernel)
  obtain ⟨ev₃, ev₃', h₃, h₃', hout₃⟩ := exists_of_rel hcallers (by decide +kernel)
  exact ⟨_, _, _, rfl, rfl, rfl, ⟨ev₁, ev₁', h₁, h₁', hout₁, hcalls₁⟩,
    ⟨ev₂, ev₂', h₂, h₂', hout₂⟩, ev₃, ev₃', h₃, h₃', hout₃⟩

end Interpreter

end LexLisp
