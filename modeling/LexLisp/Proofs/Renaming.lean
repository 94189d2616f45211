import LexLisp.Interpreter.Evaluation
import LexLisp.Proofs.ValueInvariant

/-!
# Renaming environments

The identity of an environment shows nowhere: no step computes one or compares
two, and a closure prints without its environment.  So the machine does the same
under other names.  `Value.rename f` replaces the captured environments of a
value by their images under `f`, and every rule of the machine commutes with it
as long as names are looked up alike (`Machine.eval_rename` and the lemmas after
it).  What is shown of an outcome does not change (`Outcome.shown_rename`).
-/

namespace LexLisp

variable (f : EnvId → EnvId)

namespace Value

mutual

/-- The value with its captured environments renamed. -/
def rename : Value → Value
  | symbol name => symbol name
  | number x => number x
  | list cells => list (renameAll cells)
  | lambda formals body => lambda formals (rename body)
  | closure formals body env => closure formals (rename body) (env.map f)
  | native g => native g
  | invalid code => invalid code
  | absent => absent

/-- The values with their captured environments renamed. -/
def renameAll : List Value → List Value
  | [] => []
  | v :: rest => rename v :: renameAll rest

end

/-- The mutual recursion renames a list value by value. -/
@[simp] theorem renameAll_eq_map (vs : List Value) : renameAll f vs = vs.map (rename f) := by
  induction vs with
  | nil => rfl
  | cons v rest ih => rw [renameAll, ih, List.map_cons]

@[simp] theorem rename_list (cells : List Value) :
    rename f (list cells) = list (cells.map (rename f)) := by
  rw [rename, renameAll_eq_map]

/-- No renaming makes a value absent or present. -/
@[simp] theorem isAbsent_rename (v : Value) : (v.rename f).isAbsent = v.isAbsent := by
  cases v <;> rfl

/-- The type of a value does not depend on the names of environments. -/
@[simp] theorem type_rename (v : Value) : (v.rename f).type = v.type := by
  cases v <;> rfl

mutual

/-- A value lacks a part under other names only if it lacks one. -/
theorem isWhole_rename (v : Value) : (v.rename f).isWhole = v.isWhole := by
  cases v with
  | list cells => simpa only [rename, isWhole] using areWhole_rename cells
  | _ => rfl

/-- The same for the values of a list. -/
theorem areWhole_rename (vs : List Value) : areWhole (renameAll f vs) = areWhole vs := by
  match vs with
  | [] => rfl
  | v :: rest => rw [renameAll, areWhole, areWhole, isWhole_rename v, areWhole_rename rest]

end

/-- What is printed in place of a value without a text is the same. -/
theorem notice_rename (v : Value) : (v.rename f).notice = v.notice := by
  cases v <;> rfl

mutual

/-- A value is printed in front of a text as it is under other names. -/
theorem printOnto_rename (v : Value) (after : Text) :
    (v.rename f).printOnto after = v.printOnto after := by
  cases v with
  | list cells => rw [rename, printOnto, printOnto, printAllOnto_rename cells]
  | lambda formals body =>
      rw [rename, printOnto, printOnto, isWhole_rename, notice_rename, printOnto_rename body]
  | _ => rfl

/-- The same for the cells of a list. -/
theorem printAllOnto_rename (vs : List Value) (after : Text) :
    printAllOnto (renameAll f vs) after = printAllOnto vs after := by
  match vs with
  | [] => rfl
  | [v] =>
      rw [renameAll, renameAll, printAllOnto, printAllOnto]
      exact printOnto_rename v after
  | v :: w :: rest =>
      have hrest := printAllOnto_rename (w :: rest) after
      rw [renameAll] at hrest
      rw [renameAll, renameAll, printAllOnto, printAllOnto, hrest]
      exact printOnto_rename v _

end

/-- A value prints the same under other names. -/
theorem print_rename (v : Value) : (v.rename f).print = v.print := by
  rw [print, print, isWhole_rename, printOnto_rename, notice_rename]

mutual

/-- Renamings that agree on the environments captured in a value rename it
alike. -/
theorem rename_congr {f g : EnvId → EnvId} :
    ∀ {v : Value}, (v.Everywhere fun w => ∀ formals body e,
      w = closure formals body (some e) → f e = g e) → v.rename f = v.rename g
  | symbol _, _ | number _, _ | native _, _ | invalid _, _ | absent, _ => rfl
  | list _, h => congrArg list (renameAll_congr h.2)
  | lambda _ _, h => congrArg (lambda _) (rename_congr h.2)
  | closure formals body env, h => by
      rw [rename, rename, rename_congr h.2]
      cases env with
      | none => rfl
      | some e => rw [Option.map_some, Option.map_some, h.1 formals body e rfl]

/-- The same for a list of values. -/
theorem renameAll_congr {f g : EnvId → EnvId} :
    ∀ {vs : List Value}, (EverywhereIn (fun w => ∀ formals body e,
      w = closure formals body (some e) → f e = g e) vs) → renameAll f vs = renameAll g vs
  | [], _ => rfl
  | _ :: _, h => congrArg₂ List.cons (rename_congr h.1) (renameAll_congr h.2)

end

mutual

/-- To rename every environment to itself changes no value. -/
theorem rename_id : ∀ v : Value, v.rename id = v
  | symbol _ | number _ | native _ | invalid _ | absent => rfl
  | list cells => congrArg list (renameAll_id cells)
  | lambda formals body => congrArg (lambda formals) (rename_id body)
  | closure formals body env => by rw [rename, rename_id body, Option.map_id, id]

theorem renameAll_id : ∀ vs : List Value, renameAll id vs = vs
  | [] => rfl
  | v :: rest => congrArg₂ List.cons (rename_id v) (renameAll_id rest)

end

end Value

namespace Cause

/-- The cause of a failure with captured environments renamed. -/
def rename : Cause → Cause
  | headNotFunction found => headNotFunction (found.rename f)
  | notFunction found => notFunction (found.rename f)
  | notExpression found => notExpression (found.rename f)
  | notForm found => notForm (found.rename f)
  | argumentsNotList found => argumentsNotList (found.rename f)
  | misused p expected found => misused p expected (found.rename f)
  | cause => cause

/-- The code of an error does not depend on the names of environments. -/
theorem code_rename (cause : Cause) : (cause.rename f).code = cause.code := by
  cases cause <;> rfl

/-- The text of an error is the same under other names. -/
theorem detail_rename (cause : Cause) : (cause.rename f).detail = cause.detail := by
  cases cause <;> simp only [rename, detail, Value.print_rename, Value.type_rename]

end Cause

namespace Refusal

/-- The refusal with captured environments renamed. -/
def rename : Refusal → Refusal
  | error cause => error (cause.rename f)
  | panic p => panic p

/-- A value is refused for the same reason under another name. -/
theorem rename_about {cause : Value → Cause} (hcause : ∀ v, (cause v).rename f = cause (v.rename f))
    (found : Value) : (about cause found).rename f = about cause (found.rename f) := by
  simp only [about, Value.isAbsent_rename]
  split
  · rfl
  · exact congrArg error (hcause found)

end Refusal

namespace Outcome

/-- The outcome with captured environments renamed. -/
def rename : Outcome → Outcome
  | value v => value (v.rename f)
  | failure (.error e) => failure (.error ⟨e.cause.rename f, e.stack⟩)
  | failure (.panic p) => failure (.panic p)

/-- An outcome is shown the same under other names. -/
theorem shown_rename (outcome : Outcome) : (outcome.rename f).shown = outcome.shown := by
  cases outcome with
  | value v => simp only [rename, shown, Value.isWhole_rename, Value.print_rename]
  | failure failure =>
      cases failure with
      | panic p => rfl
      | error e =>
          simp only [rename, shown, Error.message, Cause.kindName, Cause.kind?, Cause.code_rename,
            Cause.detail_rename]

end Outcome

namespace Callee

/-- The callee with captured environments renamed. -/
def rename : Callee → Callee
  | closure formals body env => closure formals (body.rename f) (env.map f)
  | native g => native g

/-- What can be called can be called under other names, as the renamed callee. -/
@[simp] theorem ofValue?_rename (v : Value) :
    ofValue? (v.rename f) = (ofValue? v).map (rename f) := by
  cases v <;> rfl

@[simp] theorem isClosure_rename (callee : Callee) :
    (callee.rename f).isClosure = callee.isClosure := by
  cases callee <;> rfl

@[simp] theorem isSpecial_rename (callee : Callee) :
    (callee.rename f).isSpecial = callee.isSpecial := by
  cases callee <;> rfl

/-- A callee takes as many arguments under other names. -/
@[simp] theorem arityError?_rename (callee : Callee) (count : Nat) :
    (callee.rename f).arityError? count = callee.arityError? count := by
  cases callee <;> rfl

@[simp] theorem ownName_rename (callee : Callee) : (callee.rename f).ownName = callee.ownName := by
  cases callee <;> rfl

/-- A call is noted under the same name. -/
@[simp] theorem callName_rename (callee : Callee) (head : Value) :
    (callee.rename f).callName (head.rename f) = callee.callName head := by
  cases head <;> simp [callName, Value.rename]

/-- A wrong number of arguments has nothing to do with environments. -/
theorem rename_of_arityError? {callee : Callee} {count : Nat} {cause : Cause}
    (h : callee.arityError? count = some cause) : cause.rename f = cause := by
  cases callee with
  | native g => simp [arityError?] at h
  | closure formals body env =>
      simp only [arityError?] at h
      split at h
      · cases h
      · cases h
        rfl

end Callee

namespace Pending

/-- The pending work with environments renamed. -/
def rename : Pending → Pending
  | operator env head operands => operator (f env) (head.rename f) (operands.map (Value.rename f))
  | operand env name callee done todo =>
    operand (f env) name (callee.rename f) (done.map (Value.rename f)) (todo.map (Value.rename f))
  | leave => leave
  | define env name => define (f env) name
  | choose env yes no => choose (f env) (yes.rename f) (no.rename f)
  | applied env operands => applied (f env) (operands.rename f)
  | arguments env g => arguments (f env) (g.rename f)

end Pending

namespace Control

/-- The work at hand with environments renamed. -/
def rename : Control → Control
  | eval env expr => eval (f env) (expr.rename f)
  | enter env name callee args =>
    enter (f env) name (callee.rename f) (args.map (Value.rename f))
  | done outcome => done (outcome.rename f)

end Control

namespace Config

/-- The work of a configuration with environments renamed, in the state `s`. -/
def rename (c : Config) (s : State) : Config :=
  ⟨c.control.rename f, c.pending.map (Pending.rename f), s⟩

end Config

namespace Machine

variable {f} {env : EnvId} (k : List Pending) {s s' : State} (hstack : s'.stack = s.stack)

/-- The operands are evaluated in the same order under other names. -/
theorem evalOperands_rename (name : Text) (callee : Callee) (done todo : List Value) :
    evalOperands (f env) name (callee.rename f) (done.map (Value.rename f))
        (todo.map (Value.rename f)) (k.map (Pending.rename f)) s' =
      (evalOperands env name callee done todo k s).rename f s' := by
  cases todo with
  | nil => simp [evalOperands, Config.rename, Control.rename]
  | cons expr rest => rfl

include hstack

/-- An error keeps a copy of the call stack, which has no names of
environments in it. -/
theorem fail_rename (cause : Cause) :
    fail (cause.rename f) (k.map (Pending.rename f)) s' = (fail cause k s).rename f s' := by
  simp only [fail, Config.rename, Control.rename, Outcome.rename, hstack]

/-- What is refused under one name is refused under the other. -/
theorem refuse_rename (r : Refusal) :
    refuse (r.rename f) (k.map (Pending.rename f)) s' = (refuse r k s).rename f s' := by
  cases r with
  | error cause => exact fail_rename k hstack cause
  | panic p => rfl

/-- A value that does not suit is refused for the same cause under another name. -/
theorem refuse_about_rename (cause : Value → Cause)
    (hcause : ∀ v, (cause v).rename f = cause (v.rename f)) (found : Value) :
    refuse (.about cause (found.rename f)) (k.map (Pending.rename f)) s' =
      (refuse (.about cause found) k s).rename f s' := by
  rw [← Refusal.rename_about f hcause]
  exact refuse_rename k hstack _

/-- An expression is taken apart in the same way, if each variable has the same value
under other names. -/
theorem eval_rename (expr : Value)
    (hlookup : ∀ name, s'.heap.lookup (f env) name = (s.heap.lookup env name).map (Value.rename f)) :
    eval (f env) (expr.rename f) (k.map (Pending.rename f)) s' =
      (eval env expr k s).rename f s' := by
  cases expr with
  | symbol name =>
      simp only [Value.rename, eval, hlookup name]
      cases s.heap.lookup env name with
      | some v => rfl
      | none => exact fail_rename k hstack (.undefined name)
  | list cells =>
      cases cells with
      | nil => exact fail_rename k hstack .emptyCall
      | cons head operands => simp [eval, Config.rename, Control.rename, Pending.rename]
  | invalid code => exact fail_rename k hstack (.notExpression (.invalid code))
  | _ => rfl

/-- The value at the head of a form is called, or refused, alike. -/
theorem callHead_rename (head g : Value) (operands : List Value) :
    callHead (f env) (head.rename f) (g.rename f) (operands.map (Value.rename f))
        (k.map (Pending.rename f)) s' =
      (callHead env head g operands k s).rename f s' := by
  simp only [callHead, Callee.ofValue?_rename]
  cases Callee.ofValue? g with
  | none => exact refuse_about_rename k hstack .headNotFunction (fun _ => rfl) g
  | some callee =>
      simp only [Option.map_some, Callee.arityError?_rename, List.length_map,
        Callee.isSpecial_rename, Callee.callName_rename]
      cases harity : callee.arityError? operands.length with
      | some cause =>
          have hcause := fail_rename (f := f) k hstack cause
          rwa [Callee.rename_of_arityError? f harity] at hcause
      | none =>
          simp only
          split
          · rfl
          · exact evalOperands_rename k _ callee [] operands

/-- A value applied to a list of arguments is called, or refused, alike. -/
theorem callValue_rename (g args : Value) :
    callValue (f env) (g.rename f) (args.rename f) (k.map (Pending.rename f)) s' =
      (callValue env g args k s).rename f s' := by
  simp only [callValue, Callee.ofValue?_rename]
  cases Callee.ofValue? g with
  | none => exact refuse_about_rename k hstack .notFunction (fun _ => rfl) g
  | some callee =>
      cases args with
      | list args =>
          simp only [Option.map_some, Value.rename_list, Callee.arityError?_rename,
            List.length_map, Callee.ownName_rename]
          cases harity : callee.arityError? args.length with
          | some cause =>
              have hcause := fail_rename (f := f) k hstack cause
              rwa [Callee.rename_of_arityError? f harity] at hcause
          | none => rfl
      | _ => exact refuse_about_rename k hstack .argumentsNotList (fun _ => rfl) _

/-- To rename in a result is to rename in what is concluded from it. -/
theorem conclude_rename {α : Type} {r r' : Except Refusal α} {ρ : α → α} {g : α → Value}
    (hr : r' = (r.map ρ).mapError (Refusal.rename f)) (hg : ∀ x, g (ρ x) = (g x).rename f) :
    conclude (r'.map g) (k.map (Pending.rename f)) s' = (conclude (r.map g) k s).rename f s' := by
  subst hr
  cases r with
  | ok x =>
      simp only [Except.map, Except.mapError, conclude, hg x]
      rfl
  | error refusal => exact refuse_rename k hstack refusal

omit hstack in
/-- Formals are symbols and have no environments; what is found in their place is renamed.
-/
theorem formalNames_rename (vs : List Value) :
    formalNames (vs.map (Value.rename f)) = (formalNames vs).mapError (Value.rename f) := by
  induction vs with
  | nil => rfl
  | cons v rest ih =>
      cases v with
      | symbol name =>
          simp only [List.map_cons, Value.rename, formalNames, ih]
          cases formalNames rest <;> rfl
      | _ => rfl

omit hstack in
/-- The sum is the same, and so is the place of the first addend that is not a number. -/
theorem sum_rename (vs : List Value) (index : Nat) (total : Number) :
    sum index total (vs.map (Value.rename f)) =
      ((sum index total vs).map id).mapError (Refusal.rename f) := by
  induction vs generalizing index total with
  | nil => rfl
  | cons v rest ih =>
      cases v with
      | number x => exact ih (index + 1) (total.add x)
      | _ => rfl

omit hstack in
/-- A list is split alike, and what is no list is refused alike. -/
theorem nonEmpty_rename (p : Primitive) (v : Value) :
    nonEmpty p (v.rename f) =
      ((nonEmpty p v).map fun (first, rest) =>
        (first.rename f, rest.map (Value.rename f))).mapError (Refusal.rename f) := by
  cases v with
  | list cells =>
      cases cells <;> simp [nonEmpty, Refusal.rename, Cause.rename, Except.map, Except.mapError]
  | _ => rfl

/-- The rule of a primitive does the same under other names. -/
theorem follow_rename {p : Primitive} {args : List Value}
    (haccepts : p.accepts args.length = true) :
    follow (f env) p (args.map (Value.rename f)) (k.map (Pending.rename f)) s' =
      (follow env p args k s).rename f s' := by
  have hcount : p.isVariadic = false → args.length = p.formals.length :=
    fun hvar => Primitive.count_of_accepts haccepts hvar
  cases p with
  | quote =>
      obtain ⟨expr, rfl⟩ := List.length_eq_one_iff.mp (hcount rfl)
      rfl
  | define =>
      obtain ⟨name, expr, rfl⟩ := List.length_eq_two.mp (hcount rfl)
      cases name with
      | symbol name => rfl
      | _ => exact refuse_about_rename k hstack (.misused .define .nameIsSymbol) (fun _ => rfl) _
  | function =>
      obtain ⟨formals, body, rfl⟩ := List.length_eq_two.mp (hcount rfl)
      cases formals with
      | list formals =>
          simp only [List.map_cons, List.map_nil, Value.rename_list, follow, formalNames_rename]
          cases formalNames formals with
          | ok names => rfl
          | error v =>
              exact refuse_about_rename k hstack (.misused .function .formalIsSymbol)
                (fun _ => rfl) v
      | _ =>
          exact refuse_about_rename k hstack (.misused .function .formalsAreList) (fun _ => rfl) _
  | choose =>
      obtain ⟨condition, yes, no, rfl⟩ := List.length_eq_three.mp (hcount rfl)
      rfl
  | apply =>
      obtain ⟨g, operands, rfl⟩ := List.length_eq_two.mp (hcount rfl)
      rfl
  | isNumber =>
      obtain ⟨expr, rfl⟩ := List.length_eq_one_iff.mp (hcount rfl)
      cases expr <;> rfl
  | isSymbol =>
      obtain ⟨expr, rfl⟩ := List.length_eq_one_iff.mp (hcount rfl)
      cases expr <;> rfl
  | add => exact conclude_rename k hstack (sum_rename args 0 .zero) (fun _ => rfl)
  | list => simp [follow, give, Config.rename, Control.rename, Outcome.rename]
  | first =>
      obtain ⟨v, rfl⟩ := List.length_eq_one_iff.mp (hcount rfl)
      exact conclude_rename k hstack (nonEmpty_rename .first v) (fun _ => rfl)
  | rest =>
      obtain ⟨v, rfl⟩ := List.length_eq_one_iff.mp (hcount rfl)
      exact conclude_rename k hstack (nonEmpty_rename .rest v) (by simp)

/-- A primitive does the same under other names, its check of the arguments included. -/
theorem perform_rename (p : Primitive) (args : List Value) :
    perform (f env) p (args.map (Value.rename f)) (k.map (Pending.rename f)) s' =
      (perform env p args k s).rename f s' := by
  simp only [perform, List.length_map]
  split
  · rename_i haccepts
    exact follow_rename k hstack haccepts
  · exact fail_rename k hstack (.operandCount p args.length)

end Machine

end LexLisp
