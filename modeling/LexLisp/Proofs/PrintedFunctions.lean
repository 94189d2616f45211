import LexLisp.Proofs.PrintRead
import LexLisp.Proofs.ProtocolRefinement
import LexLisp.Proofs.SourceTexts
import LexLisp.Proofs.Visibility

/-!
# Printed functions

A lambda is printed as the form that gives the function when it is evaluated: `fn`, the list of
its formals, and its body (`Value.print_lambda`).  If the formals are names and the body is a datum
then this form is a datum too, so it is read back; and wherever `fn` is the special operator of that
name, the form and the lambda are evaluated to the same closure.
-/

namespace LexLisp

namespace Value

/-- The form that gives a function. -/
def functionForm (formals : List Text) (body : Value) : Value :=
  list [symbol Primitive.function.name, list (formals.map symbol), body]

/-- Symbols are printed as their names, with spaces between them. -/
theorem printAllOnto_symbols (names : List Text) (after : Text) :
    printAllOnto (names.map symbol) after = Text.join " " names ++ after := by
  match names with
  | [] => rfl
  | [name] => rfl
  | name :: other :: rest =>
      have ih := printAllOnto_symbols (other :: rest) after
      have hjoin : Text.join " " (name :: other :: rest) =
          name ++ .char ' ' :: Text.join " " (other :: rest) := by
        rw [Text.join, List.append_assoc]
        · rfl
        · exact List.cons_ne_nil _ _
      rw [hjoin, List.append_assoc, List.cons_append, ← ih]
      rfl

/-- **A lambda is printed as a form.** -/
theorem print_lambda {formals : List Text} {body : Value} (hbody : body.isWhole = true) :
    (lambda formals body).print = (functionForm formals body).print := by
  have hwhole : (functionForm formals body).isWhole = true := by
    have hnames : areWhole (formals.map symbol) = true := by
      induction formals with
      | nil => rfl
      | cons name rest ih => exact ih
    simp [functionForm, isWhole, areWhole, hbody, hnames]
  have hlambda : (lambda formals body).isWhole = true := rfl
  rw [print, print, if_pos hlambda, if_pos hwhole, functionForm, printOnto, printOnto, if_pos hbody,
    printAllOnto, printAllOnto, printAllOnto, printOnto, printOnto, printAllOnto_symbols]
  simp only [List.append_assoc]
  rfl

/-- The form of a function is a datum if its formals are names and its body is a datum. -/
theorem functionForm_writable {formals : List Text} {body : Value}
    (hformals : ∀ name ∈ formals, name.IsName) (hbody : body.Everywhere IsWritable) :
    (functionForm formals body).Everywhere IsWritable := by
  have hfn : Text.IsName Primitive.function.name :=
    ⟨['f', 'n'], rfl, List.cons_ne_nil _ _, by simp [Text.marks], by decide⟩
  have hnames : EverywhereIn IsWritable (formals.map symbol) := by
    induction formals with
    | nil => trivial
    | cons name rest ih =>
        obtain ⟨hname, hrest⟩ := List.forall_mem_cons.mp hformals
        exact ⟨hname, ih hrest⟩
  exact ⟨trivial, hfn, ⟨trivial, hnames⟩, hbody, trivial⟩

end Value

namespace Interpreter

variable {i : Interpreter} {e : EnvId}

/-- A lambda is evaluated to a closure over the environment at once. -/
theorem exists_eval_lambda (i : Interpreter) (e : EnvId) (formals : List Text) (body : Value) :
    ∃ n, i.eval e (.lambda formals body) n =
      some ⟨.value (.closure formals body (some e)), #[], i⟩ :=
  exists_eval_iff.mpr ⟨i.state e, .lambda e formals body _, rfl, rfl⟩

/-- **The form of a function is evaluated** by one call, of the special operator. -/
theorem exists_eval_functionForm (hfn : i.get e "fn" = .ok (.native ⟨"fn", .special, .function⟩))
    (hroom : (i.stackOf e).isFull = false) (formals : List Text) (body : Value) :
    ∃ n, i.eval e (.functionForm formals body) n =
      some ⟨.value (.closure formals body (some e)),
        #[⟨⟨"fn", false⟩, e, (i.stackOf e).height + 1⟩], i⟩ := by
  have hlookup : i.heap.lookup e "fn" = some (.native ⟨"fn", .special, .function⟩) := by
    rw [get] at hfn
    split at hfn
    · rename_i v hv
      rw [hv, Except.ok.inj hfn]
    · cases hfn
  have hcall : Protocol.Invokes e "fn" (.native ⟨"fn", .special, .function⟩)
      [.list (formals.map .symbol), body] (i.state e) (.value (.closure formals body (some e)))
      (Protocol.returned (Protocol.called e ⟨"fn", false⟩ (i.state e))) :=
    .native hroom (Primitive.accepts_iff.mp rfl) (.answer (.function formals body))
  have heval : Protocol.Evaluates e (.functionForm formals body) (i.state e)
      (.value (.closure formals body (some e)))
      (Protocol.returned (Protocol.called e ⟨"fn", false⟩ (i.state e))) :=
    .special (.bound hlookup) rfl hcall
  exact exists_eval_iff.mpr ⟨_, heval, rfl, rfl⟩

/-- **A printed lambda is the source of its function.**  Let the formals of a lambda be names that
read as symbols, however many and alike, and its body a datum.  Then the bytes that the lambda is
printed in are read.  In every environment in which `fn` is the special operator of that name, and
whose call stack has room for one frame, what is read and the lambda itself are both evaluated to
the same closure over this environment, which equals itself; neither evaluation changes anything. -/
theorem printed_lambda_is_source {formals : List Text} {body : Value}
    (hformals : ∀ name ∈ formals, Text.IsName name) (hbody : body.Everywhere Value.IsWritable)
    (hfn : i.get e "fn" = .ok (.native ⟨"fn", .special, .function⟩))
    (hroom : (i.stackOf e).isFull = false) :
    ∃ expr c call bound,
      LexLisp.read (Text.ofBytes (Value.lambda formals body).print.toBytes) = .ok expr ∧
      (∀ n ≥ bound, i.eval e expr n = some ⟨.value c, #[call], i⟩ ∧
        i.eval e (.lambda formals body) n = some ⟨.value c, #[], i⟩) ∧
      c = .closure formals body (some e) ∧ c.equal c = true := by
  have hread := Value.read_toBytes_print (Value.functionForm_writable hformals hbody)
  rw [← Value.print_lambda (Value.isWhole_of_writable hbody)] at hread
  obtain ⟨n, hform⟩ := exists_eval_functionForm hfn hroom formals body
  obtain ⟨m, hlambda⟩ := exists_eval_lambda i e formals body
  have hequal : (Value.closure formals body (some e)).equal (.closure formals body (some e)) =
      true := by
    simp [Value.equal, Value.equal_self_of_writable hbody]
  refine ⟨_, _, ⟨⟨"fn", false⟩, e, (i.stackOf e).height + 1⟩, max n m, hread, ?_, rfl, hequal⟩
  intro k hk
  exact ⟨eval_eq_of_le (Nat.le_trans (Nat.le_max_left n m) hk) hform,
    eval_eq_of_le (Nat.le_trans (Nat.le_max_right n m) hk) hlambda⟩

/-- Two formals of one name and a nested body, on a call stack with room for one frame only.  The
name `fn` has been bound again to what it was bound to. -/
theorem lambda_with_repeated_formal_is_source :
    ∃ (i : Interpreter) (formals : List Text) (body : Value),
      i = (empty.newUser [.maxHeight 1]).2.define 0 "fn" (.native ⟨"fn", .special, .function⟩) ∧
      formals = ["né", "né"] ∧
      body = .list [.symbol "+", .list [], .number (.finite true ⟨1, by decide⟩)] ∧
      (∀ name ∈ formals, Text.IsName name) ∧ body.Everywhere Value.IsWritable ∧
      i.get 0 "fn" = .ok (.native ⟨"fn", .special, .function⟩) ∧
      (i.stackOf 0).isFull = false ∧
      ∃ expr c call bound,
        LexLisp.read (Text.ofBytes (Value.lambda formals body).print.toBytes) = .ok expr ∧
        (∀ n ≥ bound, i.eval 0 expr n = some ⟨.value c, #[call], i⟩ ∧
          i.eval 0 (.lambda formals body) n = some ⟨.value c, #[], i⟩) ∧
        c = .closure formals body (some 0) ∧ c.equal c = true := by
  have hname : Text.IsName "né" :=
    ⟨['n', 'é'], rfl, List.cons_ne_nil _ _, by simp [Text.marks], by decide⟩
  have hplus : Text.IsName "+" :=
    ⟨['+'], rfl, List.cons_ne_nil _ _, by simp [Text.marks], by decide⟩
  have hformals : ∀ name ∈ (["né", "né"] : List Text), Text.IsName name := by
    simpa using hname
  have hbody : Value.Everywhere Value.IsWritable
      (.list [.symbol "+", .list [], .number (.finite true ⟨1, by decide⟩)]) :=
    ⟨trivial, hplus, ⟨trivial, trivial⟩, Number.noConfusion, trivial⟩
  obtain ⟨i, hi⟩ : ∃ i : Interpreter, i = (empty.newUser [.maxHeight 1]).2.define 0 "fn"
      (.native ⟨"fn", .special, .function⟩) := ⟨_, rfl⟩
  have hfn : i.get 0 "fn" = .ok (.native ⟨"fn", .special, .function⟩) := by
    have hsize : 0 < (empty.newUser [.maxHeight 1]).2.heap.size := by decide +kernel
    have hlookup : i.heap.lookup 0 "fn" = some (.native ⟨"fn", .special, .function⟩) := by
      apply Heap.lookup_of_bound
      rw [hi, define, Heap.find?_define, if_pos ⟨rfl, hsize, rfl⟩]
    rw [get, hlookup]
  have hroom : (i.stackOf 0).isFull = false := by
    rw [hi]
    decide +kernel
  exact ⟨i, ["né", "né"], _, hi, rfl, rfl, hformals, hbody, hfn, hroom,
    printed_lambda_is_source hformals hbody hfn hroom⟩

end Interpreter

end LexLisp
