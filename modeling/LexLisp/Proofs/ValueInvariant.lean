import LexLisp.Proofs.StackDiscipline
import Mathlib.Data.List.Basic

/-!
# Invariants of values

Evaluation takes values apart, puts them into lists and closures, and hands
them on; it makes only numbers, symbols, lists and closures of its own.  A
condition on values that these four meet (`Policy`) therefore holds of every
part of every value that turns up, once it holds of the expression and of all
that is bound (`Config.Holds`, `Config.Holds.step`).

A panic stands for the absent value that led to it: where no value has an absent
part, no evaluation panics.
-/

namespace LexLisp

namespace Value

mutual

/-- The condition holds of a value and of all its parts: of the elements of a
list, and of the body of a function. -/
def Everywhere (ok : Value → Prop) : Value → Prop
  | list cells => ok (list cells) ∧ EverywhereIn ok cells
  | lambda formals body => ok (lambda formals body) ∧ Everywhere ok body
  | closure formals body env => ok (closure formals body env) ∧ Everywhere ok body
  | v => ok v

/-- The condition holds everywhere in the values of a list. -/
def EverywhereIn (ok : Value → Prop) : List Value → Prop
  | [] => True
  | v :: rest => Everywhere ok v ∧ EverywhereIn ok rest

end

variable {ok ok' : Value → Prop}

/-- What holds everywhere in a list of values holds everywhere in each. -/
theorem everywhereIn_iff {vs : List Value} :
    EverywhereIn ok vs ↔ ∀ v ∈ vs, Everywhere ok v := by
  induction vs with
  | nil => simp [EverywhereIn]
  | cons v rest ih => simp [EverywhereIn, ih]

mutual

/-- What follows from what holds everywhere in a value holds everywhere in it. -/
theorem Everywhere.mono (hmono : ∀ v, ok v → ok' v) :
    ∀ {v : Value}, Everywhere ok v → Everywhere ok' v
  | list _, h => ⟨hmono _ h.1, EverywhereIn.mono hmono h.2⟩
  | lambda _ _, h => ⟨hmono _ h.1, Everywhere.mono hmono h.2⟩
  | closure _ _ _, h => ⟨hmono _ h.1, Everywhere.mono hmono h.2⟩
  | symbol _, h | number _, h | native _, h | invalid _, h | absent, h => hmono _ h

theorem EverywhereIn.mono (hmono : ∀ v, ok v → ok' v) :
    ∀ {vs : List Value}, EverywhereIn ok vs → EverywhereIn ok' vs
  | [], _ => trivial
  | _ :: _, h => ⟨Everywhere.mono hmono h.1, EverywhereIn.mono hmono h.2⟩

end

mutual

/-- A value with nothing absent in it has a text. -/
theorem Everywhere.isWhole (hok : ∀ v, ok v → v.isAbsent = false) :
    ∀ {v : Value}, Everywhere ok v → v.isWhole = true
  | list _, h => EverywhereIn.areWhole hok h.2
  | absent, h => Bool.noConfusion (hok _ h)
  | symbol _, _ | number _, _ | lambda _ _, _ | closure _ _ _, _ | native _, _ | invalid _, _ => rfl

/-- Values with nothing absent in them have texts. -/
theorem EverywhereIn.areWhole (hok : ∀ v, ok v → v.isAbsent = false) :
    ∀ {vs : List Value}, EverywhereIn ok vs → areWhole vs = true
  | [], _ => rfl
  | _ :: _, h => by rw [Value.areWhole, h.1.isWhole hok, h.2.areWhole hok, Bool.and_self]

end

/-- What holds everywhere holds of the value itself. -/
theorem Everywhere.self {v : Value} (h : Everywhere ok v) : ok v := by
  cases v with
  | list _ => exact h.1
  | lambda _ _ => exact h.1
  | closure _ _ _ => exact h.1
  | _ => exact h

/-- Only what is absent counts as absent. -/
theorem eq_absent {v : Value} (h : v.isAbsent = true) : v = absent := by
  cases v with
  | absent => rfl
  | _ => cases h

/-- A property of values that evaluation in `env` keeps. -/
structure Closed (P : Value → Prop) (env : EnvId) : Prop where
  symbol : ∀ name, P (.symbol name)
  number : ∀ x, P (.number x)
  list : ∀ {cells}, P (.list cells) ↔ ∀ v ∈ cells, P v
  closure : ∀ {formals body}, P body → P (.closure formals body (some env))
  lambda_body : ∀ {formals body}, P (.lambda formals body) → P body
  closure_body : ∀ {formals body captured}, P (.closure formals body captured) → P body

end Value

namespace Primitive

/-- A primitive that does not take any number of operands takes as many as it
has formals. -/
theorem count_of_accepts {p : Primitive} {count : Nat} (h : p.accepts count = true)
    (hvar : p.isVariadic = false) : count = p.formals.length := by
  simpa [accepts, hvar] using h

end Primitive

namespace Callee

/-- The value that is called. -/
def toValue : Callee → Value
  | closure formals body env => .closure formals body env
  | native f => .native f

/-- A callee is the value it was made of. -/
theorem toValue_of_ofValue? {v : Value} {callee : Callee} (h : ofValue? v = some callee) :
    callee.toValue = v := by
  cases v with
  | closure formals body env =>
      obtain rfl := Option.some.inj h
      rfl
  | native f =>
      obtain rfl := Option.some.inj h
      rfl
  | _ => simp [ofValue?] at h

end Callee

namespace Outcome

/-- The values in an outcome.  A panic stands for an absent value. -/
def values : Outcome → List Value
  | value v => [v]
  | failure (.error _) => []
  | failure (.panic _) => [.absent]

/-- An outcome without an absent value is a value or an error. -/
theorem value_or_error {outcome : Outcome} (h : ∀ v ∈ outcome.values, v.isAbsent = false) :
    (∃ v, outcome = .value v) ∨ ∃ err, outcome = .failure (.error err) := by
  cases outcome with
  | value v => exact Or.inl ⟨v, rfl⟩
  | failure f =>
      cases f with
      | error err => exact Or.inr ⟨err, rfl⟩
      | panic p =>
          have habsent := h .absent (by simp [values])
          simp [Value.isAbsent] at habsent

/-- An outcome whose values have texts is a value that has one, or an error. -/
theorem whole_or_error {outcome : Outcome} (h : ∀ v ∈ outcome.values, v.isWhole = true) :
    (∃ v, v.isWhole = true ∧ outcome = .value v) ∨ ∃ err, outcome = .failure (.error err) := by
  cases outcome with
  | value v => exact Or.inl ⟨v, h v (by simp [values]), rfl⟩
  | failure f =>
      cases f with
      | error err => exact Or.inr ⟨err, rfl⟩
      | panic p => cases h .absent (by simp [values])

/-- A value that has a text is shown as this text. -/
theorem shown_of_isWhole {v : Value} (h : v.isWhole = true) : (value v).shown = .ok v.print :=
  if_pos h

/-- A value that has a text can be shown, and so can an error. -/
theorem exists_shown {outcome : Outcome}
    (h : (∃ v, v.isWhole = true ∧ outcome = .value v) ∨ ∃ err, outcome = .failure (.error err)) :
    ∃ text, outcome.shown = .ok text := by
  rcases h with ⟨v, hv, rfl⟩ | ⟨err, rfl⟩
  · exact ⟨v.print, shown_of_isWhole hv⟩
  · exact ⟨_, rfl⟩

end Outcome

namespace Control

/-- The values the machine is working on. -/
def values : Control → List Value
  | eval _ expr => [expr]
  | enter _ _ callee args => callee.toValue :: args
  | done outcome => outcome.values

end Control

namespace Pending

/-- The values that are held back for later. -/
def values : Pending → List Value
  | operator _ head operands => head :: operands
  | operand _ _ callee done todo => callee.toValue :: (done ++ todo)
  | leave => []
  | define _ _ => []
  | choose _ yes no => [yes, no]
  | applied _ operands => [operands]
  | arguments _ f => [f]

end Pending

namespace Config

/-- The values in a configuration, apart from those that are bound. -/
def values (c : Config) : List Value :=
  c.control.values ++ c.pending.flatMap Pending.values

/-- All values in a configuration have the property. -/
def All (P : Value → Prop) (c : Config) : Prop :=
  ∀ v ∈ c.values, P v

theorem all_mk {P : Value → Prop} {control : Control} {k : List Pending} {s : State} :
    All P ⟨control, k, s⟩ ↔
      (∀ v ∈ control.values, P v) ∧ ∀ p ∈ k, ∀ v ∈ p.values, P v := by
  simp only [All, values, List.mem_append, List.mem_flatMap]
  grind

end Config

namespace Machine

open Config

variable {P : Value → Prop} {env : EnvId} (k : List Pending) (s : State)
  (hk : ∀ p ∈ k, ∀ v ∈ p.values, P v)

include hk

theorem give_all {v : Value} (hv : P v) : All P (give v k s) :=
  all_mk.mpr ⟨by simpa [Control.values, Outcome.values] using hv, hk⟩

theorem fail_all (cause : Cause) : All P (fail cause k s) :=
  all_mk.mpr ⟨by simp [Control.values, Outcome.values], hk⟩

/-- A panic is due to an absent value. -/
theorem giveUp_all (p : Panic) (habsent : P .absent) : All P (giveUp p k s) :=
  all_mk.mpr ⟨by simpa [Control.values, Outcome.values] using habsent, hk⟩

/-- To refuse an absent value is a panic, and it is due to this value. -/
theorem refuse_about_all (cause : Value → Cause) {found : Value} (hfound : P found) :
    All P (refuse (.about cause found) k s) := by
  by_cases habsent : found.isAbsent = true
  · rw [Refusal.about, if_pos habsent]
    exact giveUp_all k s hk _ (Value.eq_absent habsent ▸ hfound)
  · rw [Refusal.about, if_neg habsent]
    exact fail_all k s hk _

/-- To evaluate an expression first adds it and the values of what awaits it. -/
theorem evalFirst_all {expr : Value} (p : Pending) (hexpr : P expr) (hp : ∀ v ∈ p.values, P v) :
    All P ⟨.eval env expr, p :: k, s⟩ :=
  all_mk.mpr ⟨by simpa [Control.values] using hexpr, List.forall_mem_cons.mpr ⟨hp, hk⟩⟩

/-- To enter a function adds it and its arguments. -/
theorem enter_all (name : Text) {callee : Callee} {args : List Value} (hcallee : P callee.toValue)
    (hargs : ∀ v ∈ args, P v) : All P ⟨.enter env name callee args, k, s⟩ :=
  all_mk.mpr ⟨List.forall_mem_cons.mpr ⟨hcallee, hargs⟩, hk⟩

/-- An expression gives values that it contains, that are bound, or that close over its
parts. -/
theorem eval_all (hP : Value.Closed P env) {expr : Value} (hexpr : P expr)
    (hbound : ∀ name v, s.heap.lookup env name = some v → P v) :
    All P (eval env expr k s) := by
  unfold eval
  split
  · split
    · rename_i name _ hlookup
      exact give_all k s hk (hbound _ _ hlookup)
    · exact fail_all k s hk _
  · exact fail_all k s hk _
  · rename_i head operands
    have hparts := hP.list.mp hexpr
    exact evalFirst_all k s hk _ (hparts head List.mem_cons_self) hparts
  · exact give_all k s hk (hP.closure (hP.lambda_body hexpr))
  · exact give_all k s hk hexpr
  · exact give_all k s hk hexpr
  · exact give_all k s hk hexpr
  · exact fail_all k s hk _
  · exact giveUp_all k s hk _ hexpr

/-- To evaluate operands adds no value but the callee, those given and those to come. -/
theorem evalOperands_all (name : Text) {callee : Callee} {done todo : List Value}
    (hcallee : P callee.toValue) (hdone : ∀ v ∈ done, P v) (htodo : ∀ v ∈ todo, P v) :
    All P (evalOperands env name callee done todo k s) := by
  cases todo with
  | nil => exact enter_all k s hk name hcallee (by simpa using hdone)
  | cons expr rest =>
      obtain ⟨hexpr, hrest⟩ := List.forall_mem_cons.mp htodo
      refine evalFirst_all k s hk _ hexpr (List.forall_mem_cons.mpr ⟨hcallee, ?_⟩)
      intro v hv
      rcases List.mem_append.mp hv with hv | hv
      · exact hdone v hv
      · exact hrest v hv

/-- To call the head of a form adds its value and the operands only. -/
theorem callHead_all (head : Value) {f : Value} {operands : List Value} (hf : P f)
    (hoperands : ∀ v ∈ operands, P v) : All P (callHead env head f operands k s) := by
  unfold callHead
  split
  · exact refuse_about_all k s hk _ hf
  · rename_i callee hcallee
    rw [← Callee.toValue_of_ofValue? hcallee] at hf
    split
    · exact fail_all k s hk _
    · split
      · exact enter_all k s hk _ hf hoperands
      · exact evalOperands_all k s hk _ hf (by simp) hoperands

/-- To apply a value adds it and the arguments only. -/
theorem callValue_all (hP : Value.Closed P env) {f args : Value} (hf : P f) (hargs : P args) :
    All P (callValue env f args k s) := by
  unfold callValue
  split
  · exact refuse_about_all k s hk _ hf
  · rename_i callee hcallee
    rw [← Callee.toValue_of_ofValue? hcallee] at hf
    split
    · split
      · exact fail_all k s hk _
      · exact enter_all k s hk _ hf (hP.list.mp hargs)
    · exact refuse_about_all k s hk _ hargs

/-- A primitive that evaluates nothing goes on with a value of its own, with an error, or
with a panic that is due to an absent operand. -/
theorem conclude_all {α : Type} {r : Except Refusal α} {g : α → Value}
    (hr : ∀ x, r = .ok x → P (g x)) (hpanic : ∀ p, r = .error (.panic p) → P .absent) :
    All P (conclude (r.map g) k s) := by
  cases r with
  | ok x => exact give_all k s hk (hr x rfl)
  | error refusal =>
      cases refusal with
      | error cause => exact fail_all k s hk cause
      | panic p => exact giveUp_all k s hk p (hpanic p rfl)

section Operands

omit hk

/-- To refuse a value by a panic is to refuse an absent one. -/
theorem eq_absent_of_about {cause : Value → Cause} {found : Value} {p : Panic}
    (h : Refusal.about cause found = .panic p) : found = .absent := by
  unfold Refusal.about at h
  split at h
  · rename_i habsent
    exact Value.eq_absent habsent
  · cases h

/-- The element that is no formal is one of the list. -/
theorem mem_of_formalNames {vs : List Value} {v : Value} (h : formalNames vs = .error v) :
    v ∈ vs := by
  induction vs with
  | nil => cases h
  | cons w rest ih =>
      cases w with
      | symbol name =>
          cases hrest : formalNames rest with
          | ok names =>
              rw [formalNames, hrest] at h
              cases h
          | error u =>
              rw [formalNames, hrest] at h
              cases h
              exact List.mem_cons_of_mem _ (ih hrest)
      | _ =>
          cases h
          exact List.mem_cons_self

/-- A sum panics at an absent addend alone. -/
theorem absent_mem_of_sum {vs : List Value} {index : Nat} {total : Number} {p : Panic}
    (h : sum index total vs = .error (.panic p)) : Value.absent ∈ vs := by
  induction vs generalizing index total with
  | nil => cases h
  | cons v rest ih =>
      cases v with
      | number x => exact List.mem_cons_of_mem _ (ih h)
      | absent => exact List.mem_cons_self
      | _ => cases h

/-- The elements of a list that is not empty. -/
theorem nonEmpty_eq_ok {p : Primitive} {v first : Value} {rest : List Value}
    (h : nonEmpty p v = .ok (first, rest)) : v = .list (first :: rest) := by
  unfold nonEmpty at h
  split at h
  · cases h
    rfl
  · cases h
  · cases h

/-- To look for the elements of a list panics where there is no value at all. -/
theorem eq_absent_of_nonEmpty {p : Primitive} {v : Value} {panic : Panic}
    (h : nonEmpty p v = .error (.panic panic)) : v = .absent := by
  unfold nonEmpty at h
  split at h
  · cases h
  · cases h
  · exact eq_absent_of_about (Except.error.inj h)

end Operands

/-- The answer to a question about a value's type is a number. -/
theorem tell_all (hP : Value.Closed P env) {v : Value} (hv : P v) (asked : Bool) :
    All P (conclude (tell v asked) k s) := by
  unfold tell
  split
  · rename_i habsent
    exact giveUp_all k s hk _ (Value.eq_absent habsent ▸ hv)
  · exact give_all k s hk (hP.number _)

/-- The rule of a primitive hands its operands on, or makes numbers, symbols,
lists and closures of them. -/
theorem follow_all (hP : Value.Closed P env) {p : Primitive} {args : List Value}
    (haccepts : p.accepts args.length = true) (hargs : ∀ v ∈ args, P v) :
    All P (follow env p args k s) := by
  -- With the right number of operands a primitive has a rule for them.
  have hcount : p.isVariadic = false → args.length = p.formals.length :=
    fun hvar => Primitive.count_of_accepts haccepts hvar
  cases p with
  | quote =>
      obtain ⟨expr, rfl⟩ := List.length_eq_one_iff.mp (hcount rfl)
      exact give_all k s hk (hargs expr (by simp))
  | define =>
      obtain ⟨name, expr, rfl⟩ := List.length_eq_two.mp (hcount rfl)
      simp only [follow]
      split
      · exact evalFirst_all k s hk _ (hargs expr (by simp)) (by simp [Pending.values])
      · exact refuse_about_all k s hk _ (hargs name (by simp))
  | function =>
      obtain ⟨formals, body, rfl⟩ := List.length_eq_two.mp (hcount rfl)
      simp only [follow]
      split
      · split
        · exact give_all k s hk (hP.closure (hargs body (by simp)))
        · rename_i hformals
          have hcells := hP.list.mp (hargs _ List.mem_cons_self)
          exact refuse_about_all k s hk _ (hcells _ (mem_of_formalNames hformals))
      · exact refuse_about_all k s hk _ (hargs formals (by simp))
  | choose =>
      obtain ⟨condition, yes, no, rfl⟩ := List.length_eq_three.mp (hcount rfl)
      exact evalFirst_all k s hk _ (hargs condition (by simp))
        fun v hv => hargs v (List.mem_cons_of_mem _ hv)
  | apply =>
      obtain ⟨f, operands, rfl⟩ := List.length_eq_two.mp (hcount rfl)
      exact evalFirst_all k s hk _ (hargs f (by simp))
        fun v hv => hargs v (List.mem_cons_of_mem _ hv)
  | isNumber =>
      obtain ⟨expr, rfl⟩ := List.length_eq_one_iff.mp (hcount rfl)
      exact tell_all k s hk hP (hargs expr (by simp)) _
  | isSymbol =>
      obtain ⟨expr, rfl⟩ := List.length_eq_one_iff.mp (hcount rfl)
      exact tell_all k s hk hP (hargs expr (by simp)) _
  | add =>
      refine conclude_all k s hk (fun x _ => hP.number x) ?_
      intro p hsum
      exact hargs _ (absent_mem_of_sum hsum)
  | list => exact give_all k s hk (hP.list.mpr hargs)
  | first =>
      obtain ⟨v, rfl⟩ := List.length_eq_one_iff.mp (hcount rfl)
      refine conclude_all k s hk ?_ ?_
      · intro parts hne
        have hparts := hP.list.mp (nonEmpty_eq_ok hne ▸ hargs v (by simp))
        exact hparts _ List.mem_cons_self
      · intro p hne
        exact eq_absent_of_nonEmpty hne ▸ hargs v (by simp)
  | rest =>
      obtain ⟨v, rfl⟩ := List.length_eq_one_iff.mp (hcount rfl)
      refine conclude_all k s hk ?_ ?_
      · intro parts hne
        have hparts := hP.list.mp (nonEmpty_eq_ok hne ▸ hargs v (by simp))
        exact hP.list.mpr fun x hx => hparts x (List.mem_cons_of_mem _ hx)
      · intro p hne
        exact eq_absent_of_nonEmpty hne ▸ hargs v (by simp)

/-- A primitive gives values that its arguments lead to. -/
theorem perform_all (hP : Value.Closed P env) (p : Primitive) {args : List Value}
    (hargs : ∀ v ∈ args, P v) : All P (perform env p args k s) := by
  unfold perform
  split
  · rename_i haccepts
    exact follow_all k s hk hP haccepts hargs
  · exact fail_all k s hk _

end Machine

/-- Which environments may be worked in, and which values may turn up, where
there are `n` environments.  Environments that are created may be worked in, at
least from the size `since` of the heap on, and the values that evaluation makes
are allowed.  What a closure has captured may be worked in. -/
structure Policy where
  since : Nat
  home : Nat → EnvId → Prop
  ok : Nat → Value → Prop
  home_succ : ∀ {n a}, since ≤ n → (home (n + 1) a ↔ a = n ∨ home n a)
  ok_succ : ∀ {n v}, since ≤ n → ok n v → ok (n + 1) v
  symbol : ∀ n name, ok n (.symbol name)
  number : ∀ n x, ok n (.number x)
  list : ∀ n cells, ok n (.list cells)
  closure : ∀ {n env} formals body, home n env → ok n (.closure formals body (some env))
  captured : ∀ {n env formals body}, ok n (.closure formals body (some env)) → home n env

namespace Policy

/-- All parts of a value are allowed. -/
def Good (π : Policy) (n : Nat) (v : Value) : Prop := v.Everywhere (π.ok n)

variable {π : Policy} {n : Nat}

theorem Good.succ {v : Value} (hn : π.since ≤ n) (h : π.Good n v) : π.Good (n + 1) v :=
  Value.Everywhere.mono (fun _ => π.ok_succ hn) h

/-- The good values are closed under what the machine does with values. -/
theorem closed {env : EnvId} (henv : π.home n env) : Value.Closed (π.Good n) env where
  symbol := π.symbol n
  number := π.number n
  list := by
    intro cells
    rw [Good, Value.Everywhere, Value.everywhereIn_iff]
    exact ⟨fun h => h.2, fun h => ⟨π.list n cells, h⟩⟩
  closure hbody := ⟨π.closure _ _ henv, hbody⟩
  lambda_body h := h.2
  closure_body h := h.2

end Policy

namespace Bindings

theorem mem_of_find? {bs : Bindings} {name : Text} {v : Value} (h : bs.find? name = some v) :
    (name, v) ∈ bs := by
  induction bs with
  | nil => simp at h
  | cons b rest ih =>
      obtain ⟨n, w⟩ := b
      rw [find?_cons] at h
      split at h
      · rename_i hn
        obtain rfl := Option.some.inj h
        exact hn ▸ List.mem_cons_self
      · exact List.mem_cons_of_mem _ (ih h)

/-- After a binding is added, what is bound is it or was bound before. -/
theorem mem_insert {bs : Bindings} {name : Text} {v : Value} {b : Text × Value}
    (h : b ∈ bs.insert name v) : b.2 = v ∨ b ∈ bs := by
  induction bs with
  | nil =>
      obtain rfl := List.mem_singleton.mp h
      exact Or.inl rfl
  | cons c rest ih =>
      obtain ⟨n, w⟩ := c
      rw [insert] at h
      split at h
      · rcases List.mem_cons.mp h with rfl | hb
        · exact Or.inl rfl
        · exact Or.inr (List.mem_cons_of_mem _ hb)
      · rcases List.mem_cons.mp h with rfl | hb
        · exact Or.inr List.mem_cons_self
        · rcases ih hb with hv | hb
          · exact Or.inl hv
          · exact Or.inr (List.mem_cons_of_mem _ hb)

/-- Binding names in order binds nothing but the values given. -/
theorem mem_ofPairs {pairs : List (Text × Value)} {b : Text × Value} (h : b ∈ ofPairs pairs) :
    ∃ pair ∈ pairs, b.2 = pair.2 := by
  have hfold : ∀ (pairs : List (Text × Value)) (bs : Bindings),
      b ∈ pairs.foldl (fun bs pair => bs.insert pair.1 pair.2) bs →
        b ∈ bs ∨ ∃ pair ∈ pairs, b.2 = pair.2 := by
    intro pairs
    induction pairs with
    | nil => exact fun bs hb => Or.inl hb
    | cons pair rest ih =>
        intro bs hb
        rcases ih _ hb with hb | ⟨other, hmem, heq⟩
        · rcases mem_insert hb with heq | hold
          · exact Or.inr ⟨pair, List.mem_cons_self, heq⟩
          · exact Or.inl hold
        · exact Or.inr ⟨other, List.mem_cons_of_mem _ hmem, heq⟩
  rcases hfold pairs [] h with hnil | hpair
  · cases hnil
  · exact hpair

end Bindings

namespace Heap

/-- After a definition the value is bound, and what was bound before. -/
theorem mem_bindings_define {h : Heap} {e a : EnvId} {name : Text} {v : Value} {b : Text × Value}
    (hb : b ∈ (h.define e name v).bindings a) : b.2 = v ∨ b ∈ h.bindings a := by
  by_cases hae : a = e
  · subst hae
    cases hc : h[a]? with
    | none => simp [bindings, getElem?_define_self, hc] at hb
    | some env =>
        have hold : h.bindings a = env.bindings := by simp [bindings, hc]
        simp only [bindings, getElem?_define_self, hc, Option.map_some, Option.getD_some] at hb
        rcases Bindings.mem_insert hb with heq | hb
        · exact Or.inl heq
        · exact Or.inr (hold ▸ hb)
  · rw [bindings_define_of_ne h name v hae] at hb
    exact Or.inr hb

/-- Where work may be done, only allowed values are bound, and the parent may be
worked in, too. -/
def Obeys (π : Policy) (h : Heap) : Prop :=
  ∀ a, π.home h.size a →
    (∀ b ∈ h.bindings a, π.Good h.size b.2) ∧ ∀ p, h.parent? a = some p → π.home h.size p

namespace Obeys

variable {π : Policy} {h : Heap}

/-- From an environment of the home the parents do not lead out of it. -/
theorem chain (hobeys : h.Obeys π) {e : EnvId} (he : π.home h.size e) :
    ∀ a ∈ h.chain e, π.home h.size a := by
  fun_induction Heap.chain h e with
  | case1 e p hp hlt ih =>
      intro a ha
      rcases List.mem_cons.mp ha with rfl | ha
      · exact he
      · exact ih ((hobeys e he).2 p hp) a ha
  | case2 e p hp hge =>
      intro a ha
      exact List.mem_singleton.mp ha ▸ he
  | case3 e hp =>
      intro a ha
      exact List.mem_singleton.mp ha ▸ he

/-- What is found from where work may be done is allowed. -/
theorem lookup (hobeys : h.Obeys π) {e : EnvId} (he : π.home h.size e) {name : Text} {v : Value}
    (hv : h.lookup e name = some v) : π.Good h.size v := by
  obtain ⟨a, ha, hfind⟩ := List.exists_of_findSome?_eq_some hv
  exact (hobeys a (hobeys.chain he a ha)).1 _ (Bindings.mem_of_find? hfind)

/-- A good value may be bound anywhere. -/
theorem define (hobeys : h.Obeys π) {e : EnvId} {name : Text} {v : Value}
    (hv : π.Good h.size v) : (h.define e name v).Obeys π := by
  intro a ha
  rw [size_define] at ha ⊢
  rw [parent?_define]
  refine ⟨?_, (hobeys a ha).2⟩
  intro b hb
  rcases mem_bindings_define hb with heq | hold
  · exact heq ▸ hv
  · exact (hobeys a ha).1 b hold

/-- An environment that binds good values, with a parent at home, may be created. -/
theorem push (hobeys : h.Obeys π) (hsince : π.since ≤ h.size) {env : Environment}
    (hbound : ∀ b ∈ env.bindings, π.Good h.size b.2)
    (hparent : ∀ p, env.parent = some p → π.home h.size p) : Obeys π (h.push env) := by
  have hhome : ∀ {a : EnvId}, π.home h.size a → π.home (h.size + 1) a :=
    fun ha => (π.home_succ hsince).mpr (Or.inr ha)
  intro a ha
  rw [Array.size_push] at ha ⊢
  by_cases hae : a = h.size
  · subst hae
    rw [parent?_push_self, bindings_push_self]
    exact ⟨fun b hb => (hbound b hb).succ hsince, fun p hp => hhome (hparent p hp)⟩
  · rw [parent?_push_of_ne h env hae, bindings_push_of_ne h env hae]
    have hold : π.home h.size a := ((π.home_succ hsince).mp ha).resolve_left hae
    exact ⟨fun b hb => ((hobeys a hold).1 b hb).succ hsince,
      fun p hp => hhome ((hobeys a hold).2 p hp)⟩

end Obeys

end Heap

namespace Config

/-- Work is done, values turn up and names are bound as the policy allows. -/
structure Holds (π : Policy) (c : Config) : Prop where
  since_le : π.since ≤ c.state.heap.size
  heap : c.state.heap.Obeys π
  envs : ∀ a ∈ c.envs, π.home c.state.heap.size a
  all : c.All (π.Good c.state.heap.size)

variable {π : Policy} {c d : Config}

/-- With the heap unchanged only the values at hand and the environments at work matter.
-/
theorem Holds.of_same_heap (h : c.Holds π) (hheap : d.state.heap = c.state.heap)
    (henvs : d.envs ⊆ c.envs) (hall : d.All (π.Good c.state.heap.size)) : d.Holds π := by
  refine ⟨?_, ?_, ?_, ?_⟩
  · rw [hheap]
    exact h.since_le
  · rw [hheap]
    exact h.heap
  · rw [hheap]
    exact fun a ha => h.envs a (henvs ha)
  · rw [hheap]
    exact hall

/-- To go on in an environment at work, with allowed values, is allowed. -/
theorem Holds.of_goesOn (h : c.Holds π) {env : EnvId} {k : List Pending}
    (hon : Machine.GoesOn env k c.state d) (henvs : env :: Pending.envs k ⊆ c.envs)
    (hall : d.All (π.Good c.state.heap.size)) : d.Holds π :=
  h.of_same_heap (by rw [hon.state]) (List.Subset.trans hon.envs henvs) hall

end Config

namespace Machine

open Config

variable {π : Policy} {env : EnvId} {k : List Pending} {s : State}

/-- A closure runs as the policy allows, wherever it is called from: its body is
evaluated in a fresh environment below the captured one. -/
theorem runClosure_holds {formals : List Text} {body : Value} {captured : Option EnvId}
    {args : List Value} (hsince : π.since ≤ s.heap.size) (hobeys : s.heap.Obeys π)
    (henvs : ∀ a ∈ Pending.envs k, π.home s.heap.size a)
    (hclosure : π.Good s.heap.size (.closure formals body captured))
    (hargs : ∀ v ∈ args, π.Good s.heap.size v)
    (hk : ∀ p ∈ k, ∀ v ∈ p.values, π.Good s.heap.size v) :
    Holds π (runCallee env (.closure formals body captured) args k s) := by
  let fresh : Environment := ⟨captured, s.heap.sessionOf env, bindFormals formals args⟩
  have hbound : ∀ b ∈ fresh.bindings, π.Good s.heap.size b.2 := by
    intro b hb
    obtain ⟨pair, hpair, heq⟩ := Bindings.mem_ofPairs hb
    have hmem := (List.takeWhile_sublist _).subset hpair
    exact heq ▸ hargs _ (List.of_mem_zip hmem).2
  have hparent : ∀ p, fresh.parent = some p → π.home s.heap.size p := by
    rintro p rfl
    exact π.captured hclosure.1
  have hheap : Heap.Obeys π (s.heap.push fresh) := hobeys.push hsince hbound hparent
  have hsince' : π.since ≤ (s.heap.push fresh).size := by
    rw [Array.size_push]
    exact Nat.le_succ_of_le hsince
  have hgrown : ∀ {v : Value}, π.Good s.heap.size v → π.Good (s.heap.push fresh).size v := by
    intro v hv
    rw [Array.size_push]
    exact hv.succ hsince
  have hhome : ∀ a, a = s.heap.size ∨ π.home s.heap.size a →
      π.home (s.heap.push fresh).size a := by
    intro a ha
    rw [Array.size_push]
    exact (π.home_succ hsince).mpr ha
  have hk' : ∀ p ∈ k, ∀ v ∈ p.values, π.Good (s.heap.push fresh).size v :=
    fun p hp v hv => hgrown (hk p hp v hv)
  simp only [runCallee]
  split
  · rename_i habsent
    obtain ⟨v, hv, hva⟩ := List.any_eq_true.mp habsent
    refine ⟨hsince', hheap, ?_, giveUp_all _ _ hk' _ ?_⟩
    · intro a ha
      exact hhome a (Or.inr (henvs a (by simpa [giveUp, Control.env?] using ha)))
    · exact hgrown (Value.eq_absent hva ▸ hargs v hv)
  · refine ⟨hsince', hheap, ?_, all_mk.mpr ⟨?_, hk'⟩⟩
    · intro a ha
      simp only [envs_mk, Control.env?, Option.toList_some, List.singleton_append,
        List.mem_cons] at ha
      exact hhome a (ha.imp_right (henvs a))
    · intro v hv
      obtain rfl := List.mem_singleton.mp hv
      exact hgrown hclosure.2

/-- To enter a function keeps the policy. -/
theorem enter_holds {name : Text} {callee : Callee} {args : List Value}
    (h : Holds π ⟨.enter env name callee args, k, s⟩) :
    Holds π (enter env name callee args k s) := by
  have hvalues := all_mk.mp h.all
  obtain ⟨hcallee, hargs⟩ := List.forall_mem_cons.mp hvalues.1
  have hleave : ∀ p ∈ Pending.leave :: k, ∀ v ∈ p.values, π.Good s.heap.size v :=
    List.forall_mem_cons.mpr ⟨by simp [Pending.values], hvalues.2⟩
  have henv : π.home s.heap.size env := h.envs env (by simp [Control.env?])
  unfold enter
  split
  · exact h.of_goesOn (fail_goesOn env k s _) (by simp [Control.env?]) (fail_all k s hvalues.2 _)
  · cases callee with
    | native f =>
        have hon := perform_goesOn env (.leave :: k) (pushFrame env ⟨name, false⟩ s) f.primitive args
        have hheap := congrArg State.heap hon.state
        refine h.of_same_heap hheap (List.Subset.trans hon.envs ?_) ?_
        · simp [Pending.env?, Control.env?]
        · exact perform_all _ _ hleave (Policy.closed henv) f.primitive hargs
    | closure formals body captured =>
        have hpending : ∀ a ∈ Pending.envs (.leave :: k), π.home s.heap.size a := by
          intro a ha
          have hold : a ∈ Pending.envs k := by simpa [Pending.env?] using ha
          exact h.envs a (by simp [hold])
        exact runClosure_holds h.since_le h.heap hpending hcallee hargs hleave

/-- A call is left as the policy allows: its frame is there to be popped. -/
theorem leave_holds {outcome : Outcome} (h : Holds π ⟨.done outcome, .leave :: k, s⟩)
    (hheight : 0 < s.stack.height) : Holds π (leave outcome k s) := by
  have hvalues := all_mk.mp h.all
  unfold leave
  rw [if_neg (Nat.ne_of_gt hheight)]
  refine h.of_same_heap rfl ?_ (all_mk.mpr ⟨hvalues.1, ?_⟩)
  · simp [Control.env?]
  · exact fun p hp => hvalues.2 p (List.mem_cons_of_mem _ hp)

/-- To go on with a value keeps the policy. -/
theorem resume_holds {v : Value} {p : Pending} (h : Holds π ⟨.done (.value v), p :: k, s⟩)
    (hheight : p.isLeave = true → 0 < s.stack.height) : Holds π (resume v p k s) := by
  have hvalues := all_mk.mp h.all
  have hv : π.Good s.heap.size v := hvalues.1 v (by simp [Control.values, Outcome.values])
  obtain ⟨hp, hk⟩ := List.forall_mem_cons.mp hvalues.2
  -- Work that goes on in the environment of `p` is allowed with allowed values.
  have hon : ∀ {env d}, p.env? = some env → GoesOn env k s d →
      All (π.Good s.heap.size) d → Holds π d := by
    intro env d henv hgoes hall
    exact h.of_goesOn hgoes (by simp [Control.env?, henv]) hall
  have hclosed : ∀ {env}, p.env? = some env → Value.Closed (π.Good s.heap.size) env := by
    intro env henv
    exact Policy.closed (h.envs env (by simp [henv]))
  cases p with
  | operator env head operands =>
      have hoperands := (List.forall_mem_cons.mp hp).2
      exact hon rfl (callHead_goesOn env k s _ _ _) (callHead_all k s hk head hv hoperands)
  | operand env name callee done todo =>
      obtain ⟨hcallee, hrest⟩ := List.forall_mem_cons.mp hp
      obtain ⟨hdone, htodo⟩ := List.forall_mem_append.mp hrest
      exact hon rfl (evalOperands_goesOn env k s _ _ _ _)
        (evalOperands_all k s hk name hcallee (List.forall_mem_cons.mpr ⟨hv, hdone⟩) htodo)
  | leave => exact leave_holds h (hheight rfl)
  | define env name =>
      simp only [resume]
      split
      · rename_i habsent
        exact hon rfl (giveUp_goesOn env k s _)
          (giveUp_all k s hk _ (Value.eq_absent habsent ▸ hv))
      · have hsize : (s.heap.define env name v).size = s.heap.size := Heap.size_define ..
        refine ⟨?_, h.heap.define hv, ?_, ?_⟩
        · exact hsize ▸ h.since_le
        · intro a ha
          have hold : a ∈ Pending.envs k := by simpa [give, Control.env?] using ha
          exact hsize ▸ h.envs a (by simp [hold])
        · exact hsize ▸ give_all k _ hk ((hclosed rfl).symbol name)
  | choose env yes no =>
      simp only [resume]
      split
      · refine hon rfl ⟨rfl, rfl, by simp [Control.env?]⟩ (all_mk.mpr ⟨?_, hk⟩)
        intro w hw
        obtain rfl := List.mem_singleton.mp hw
        split
        · exact hp no (by simp [Pending.values])
        · exact hp yes (by simp [Pending.values])
      · exact hon rfl (refuse_goesOn env k s _) (refuse_about_all k s hk _ hv)
  | applied env operands =>
      exact hon rfl (evalFirst_goesOn env k s _ _ rfl rfl)
        (evalFirst_all k s hk _ (hp operands (by simp [Pending.values]))
          (by simpa [Pending.values] using hv))
  | arguments env f =>
      simp only [resume]
      split
      · exact hon rfl (callValue_goesOn env k s _ _)
          (callValue_all k s hk (hclosed rfl) (hp f (by simp [Pending.values])) hv)
      · exact hon rfl (refuse_goesOn env k s _) (refuse_about_all k s hk _ hv)

end Machine

namespace Config

/-- **Values keep to the policy.**  A step of a machine whose call stack is in
order does nothing that the policy does not allow. -/
theorem Holds.step {π : Policy} {c : Config} {base : CallStack} (h : c.Holds π)
    (hbalanced : Balanced base c) : c.step.Holds π := by
  have hheight := hbalanced.height_pos
  obtain ⟨control, pending, s⟩ := c
  have hvalues := all_mk.mp h.all
  cases control with
  | eval env expr =>
      have henv : π.home s.heap.size env := h.envs env (by simp [Control.env?])
      refine h.of_goesOn (Machine.eval_goesOn env pending s expr) (by simp [Control.env?]) ?_
      exact Machine.eval_all pending s hvalues.2 (Policy.closed henv)
        (hvalues.1 expr (by simp [Control.values])) (fun name v hv => h.heap.lookup henv hv)
  | enter env name callee args => exact Machine.enter_holds h
  | done outcome =>
      cases pending with
      | nil => exact h
      | cons p k =>
          have hpop : p.isLeave = true → 0 < s.stack.height :=
            fun hp => hheight (by simp [hp])
          cases outcome with
          | value v => exact Machine.resume_holds h hpop
          | failure f =>
              cases p with
              | leave => exact Machine.leave_holds h (hpop rfl)
              | _ =>
                  refine h.of_same_heap rfl (by simp [Config.step, Machine.hand, Control.env?]) ?_
                  exact all_mk.mpr ⟨hvalues.1, fun p hp => hvalues.2 p (List.mem_cons_of_mem _ hp)⟩

end Config

/-- A beginning in `e` keeps to the policy if the heap and the values do. -/
theorem Machine.GoesOn.holds {π : Policy} {e : EnvId} {s : State} {c : Config}
    (h : Machine.GoesOn e [] s c) (hsince : π.since ≤ s.heap.size) (hheap : s.heap.Obeys π)
    (he : π.home s.heap.size e) (hall : c.All (π.Good s.heap.size)) : c.Holds π := by
  refine ⟨?_, ?_, ?_, ?_⟩
  · rw [h.state]
    exact hsince
  · rw [h.state]
    exact hheap
  · rw [h.state]
    intro a ha
    have hae : a = e := by simpa using h.envs ha
    exact hae ▸ he
  · rw [h.state]
    exact hall

namespace Interpreter

variable {π : Policy} {i : Interpreter} {e : EnvId} {n : Nat} {ev : Evaluation}

/-- Whatever is begun in `e` as the policy allows ends as it allows. -/
theorem run_holds {start : State → Config} (hstart : ∀ s, Machine.GoesOn e [] s (start s))
    (hsince : π.since ≤ i.heap.size) (hheap : i.heap.Obeys π) (he : π.home i.heap.size e)
    (hall : (start (i.state e)).All (π.Good i.heap.size)) (h : i.run e start n = some ev) :
    π.since ≤ ev.interpreter.heap.size ∧ ev.interpreter.heap.Obeys π ∧
      ∀ v ∈ ev.outcome.values, π.Good ev.interpreter.heap.size v := by
  obtain ⟨outcome, s, hrun, rfl⟩ := run_eq_some_iff.mp h
  have hbegin : (start (i.state e)).Holds π := (hstart (i.state e)).holds hsince hheap he hall
  -- The call stack is in order at every step, so both invariants go together.
  have hend := Config.run_invariant (P := fun c => c.Holds π ∧ Balanced (i.stackOf e) c)
    (fun c hc => ⟨hc.1.step hc.2, hc.2.step⟩) ⟨hbegin, (hstart (i.state e)).balanced⟩ hrun
  exact ⟨hend.1.since_le, hend.1.heap, (Config.all_mk.mp hend.1.all).1⟩

/-- An evaluation keeps the policy, and its outcome is good. -/
theorem eval_holds {expr : Value} (hsince : π.since ≤ i.heap.size) (hheap : i.heap.Obeys π)
    (he : π.home i.heap.size e) (hexpr : π.Good i.heap.size expr)
    (h : i.eval e expr n = some ev) :
    π.since ≤ ev.interpreter.heap.size ∧ ev.interpreter.heap.Obeys π ∧
      ∀ v ∈ ev.outcome.values, π.Good ev.interpreter.heap.size v := by
  refine run_holds (eval_goesOn e expr) hsince hheap he ?_ h
  exact Config.all_mk.mpr ⟨by simpa [Control.values] using hexpr, by simp⟩

end Interpreter

/-- Values without an absent part, wherever work is done. -/
def Policy.complete : Policy where
  since := 0
  home _ _ := True
  ok _ v := v.isAbsent = false
  home_succ := by simp
  ok_succ _ h := h
  symbol _ _ := rfl
  number _ _ := rfl
  list _ _ := rfl
  closure _ _ _ := rfl
  captured _ := trivial

/-- Two policies together. -/
def Policy.both (π ρ : Policy) (hsince : ρ.since ≤ π.since) : Policy where
  since := π.since
  home n a := π.home n a ∧ ρ.home n a
  ok n v := π.ok n v ∧ ρ.ok n v
  home_succ := by
    intro n a hn
    rw [π.home_succ hn, ρ.home_succ (Nat.le_trans hsince hn), or_and_left]
  ok_succ hn h := ⟨π.ok_succ hn h.1, ρ.ok_succ (Nat.le_trans hsince hn) h.2⟩
  symbol n name := ⟨π.symbol n name, ρ.symbol n name⟩
  number n x := ⟨π.number n x, ρ.number n x⟩
  list n cells := ⟨π.list n cells, ρ.list n cells⟩
  closure formals body h := ⟨π.closure formals body h.1, ρ.closure formals body h.2⟩
  captured h := ⟨π.captured h.1, ρ.captured h.2⟩

/-- The value has no absent part. -/
def Value.Complete (v : Value) : Prop := v.Everywhere fun w => w.isAbsent = false

/-- No value that is bound has an absent part. -/
def Heap.Complete (h : Heap) : Prop := ∀ a, ∀ b ∈ h.bindings a, b.2.Complete

/-- A heap is complete when it obeys the policy of whole values. -/
theorem Heap.complete_iff_obeys {h : Heap} : h.Complete ↔ h.Obeys Policy.complete :=
  ⟨fun hc a _ => ⟨hc a, fun _ _ => trivial⟩, fun ho a => (ho a trivial).1⟩

namespace Interpreter

/-- **No panic without absent values.**  An evaluation that meets no absent value
ends with a value or an error, and has bound no absent value. -/
theorem eval_complete {i : Interpreter} {e : EnvId} {expr : Value} {n : Nat} {ev : Evaluation}
    (hheap : i.heap.Complete) (hexpr : expr.Complete) (h : i.eval e expr n = some ev) :
    ev.interpreter.heap.Complete ∧
      ((∃ v, ev.outcome = .value v) ∨ ∃ err, ev.outcome = .failure (.error err)) := by
  obtain ⟨-, hobeys, hvalues⟩ := eval_holds (π := Policy.complete) (Nat.zero_le _)
    (Heap.complete_iff_obeys.mp hheap) trivial hexpr h
  refine ⟨Heap.complete_iff_obeys.mpr hobeys, Outcome.value_or_error ?_⟩
  exact fun v hv => (hvalues v hv).self

end Interpreter

end LexLisp
