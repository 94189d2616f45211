import LexLisp.Proofs.Renaming
import LexLisp.Proofs.Termination

/-!
# Evaluating source texts

A source text is read and evaluated, and its outcome is shown.  What is read is
made of symbols, numbers and lists (`read_isDatum`), so it has captured nothing
and every policy allows it.  The laws of evaluation thus hold for source texts:
one that is evaluated in `e` writes only `e` and its own environments, changes no
session, and has its reply wherever the height of the call stack is limited.
-/

namespace LexLisp

namespace Value

/-- The value is made of symbols, numbers and lists alone. -/
def IsDatum (v : Value) : Prop :=
  v.Everywhere fun w => (∃ name, w = symbol name) ∨ (∃ x, w = number x) ∨ ∃ cells, w = list cells

theorem isDatum_list {cells : List Value} (h : ∀ v ∈ cells, v.IsDatum) : (list cells).IsDatum :=
  ⟨Or.inr (Or.inr ⟨cells, rfl⟩), everywhereIn_iff.mpr h⟩

/-- What an atom stands for is a datum. -/
theorem isDatum_ofContent (content : List Char) : (ofContent content).IsDatum := by
  unfold ofContent
  split
  · exact Or.inr (Or.inl ⟨_, rfl⟩)
  · exact Or.inl ⟨_, rfl⟩

/-- Every policy allows data. -/
theorem IsDatum.good {v : Value} (h : v.IsDatum) (π : Policy) (n : Nat) : π.Good n v := by
  refine h.mono ?_
  rintro w (⟨name, rfl⟩ | ⟨x, rfl⟩ | ⟨cells, rfl⟩)
  · exact π.symbol n name
  · exact π.number n x
  · exact π.list n cells

/-- A datum has captured nothing. -/
theorem IsDatum.rename {v : Value} (h : v.IsDatum) (f : EnvId → EnvId) : v.rename f = v := by
  have hid : v.rename f = v.rename id := by
    apply rename_congr
    refine h.mono ?_
    rintro w (⟨name, rfl⟩ | ⟨x, rfl⟩ | ⟨cells, rfl⟩) formals body e heq
    · cases heq
    · cases heq
    · cases heq
  rw [hid, rename_id]

end Value

namespace Reader

/-- What has been read so far are data. -/
def HoldsData : Value ⊕ Opened → Prop
  | .inl v => v.IsDatum
  | .inr opened => ∀ cells ∈ opened, ∀ v ∈ cells, v.IsDatum

/-- A datum put in the innermost open list leaves data in what is open. -/
theorem place_holdsData {v : Value} {opened : Opened} (hv : v.IsDatum)
    (h : HoldsData (.inr opened)) : HoldsData (place v opened) := by
  cases opened with
  | nil => exact hv
  | cons cells outer =>
      obtain ⟨hcells, houter⟩ := List.forall_mem_cons.mp h
      exact List.forall_mem_cons.mpr ⟨List.forall_mem_cons.mpr ⟨hv, hcells⟩, houter⟩

/-- Every token that is accepted leaves data in what is open. -/
theorem accept_holdsData {opened : Opened} {token : Token} {r : Value ⊕ Opened}
    (h : HoldsData (.inr opened)) (haccept : accept opened token = some r) : HoldsData r := by
  cases token with
  | opening =>
      obtain rfl := Option.some.inj haccept
      exact List.forall_mem_cons.mpr ⟨by simp, h⟩
  | closing =>
      cases opened with
      | nil => cases haccept
      | cons cells outer =>
          obtain rfl := Option.some.inj haccept
          obtain ⟨hcells, houter⟩ := List.forall_mem_cons.mp h
          have hlist : (Value.list cells.reverse).IsDatum :=
            Value.isDatum_list fun v hv => hcells v (List.mem_reverse.mp hv)
          exact place_holdsData hlist houter
  | atom content =>
      obtain rfl := Option.some.inj haccept
      exact place_holdsData (Value.isDatum_ofContent content) h

/-- What is read into open lists of data is a datum. -/
theorem readFrom_isDatum {opened : Opened} {s rest : Text} {v : Value}
    (h : HoldsData (.inr opened)) (hread : readFrom opened s = some (v, rest)) : v.IsDatum := by
  fun_induction readFrom opened s with
  | case1 => cases hread
  | case2 => cases hread
  | case3 opened s token after hnext w haccept =>
      cases hread
      exact accept_holdsData h haccept
  | case4 opened s token after hnext opened' haccept ih =>
      exact ih (accept_holdsData h haccept) hread

end Reader

/-- What is read from a source text is a datum. -/
theorem read_isDatum {s : Text} {v : Value} (h : read s = .ok v) : v.IsDatum := by
  unfold read readExpr at h
  split at h
  · cases h
  · rename_i w rest hread
    split at h
    · cases h
      exact Reader.readFrom_isDatum (by simp [Reader.HoldsData]) hread
    · cases h

namespace Interpreter

variable {i : Interpreter} {e : EnvId} {source : Text} {n : Nat} {r : Reply}

/-- A text is answered with what keeps it from being read, or with the outcome of the
expression it is read as. -/
theorem evalText_eq_some_iff :
    i.evalText e source n = some r ↔
      (∃ failure, i.read e source = .error failure ∧
        r = ⟨.ok (("Error: " : Text) ++ failure.message), #[], i⟩) ∨
      ∃ expr ev, i.read e source = .ok expr ∧ i.eval e expr n = some ev ∧
        r = ⟨ev.outcome.shown, ev.calls, ev.interpreter⟩ := by
  unfold evalText
  cases hread : i.read e source with
  | error failure => simp [eq_comm]
  | ok expr =>
      simp only [Option.map_eq_some_iff]
      grind

/-- Whatever is read is a datum. -/
theorem read_eq_ok_isDatum {expr : Value} (h : i.read e source = .ok expr) : expr.IsDatum := by
  unfold read at h
  split at h
  · split at h
    · rename_i v hread
      cases h
      exact read_isDatum hread
    · cases h
  · cases h

/-- Under a limit on the call stack every source text gets its reply. -/
theorem evalText_returns (source : Text) (hlimit : 0 < (i.stackOf e).maxHeight) :
    ∃ n r, i.evalText e source n = some r := by
  cases hread : i.read e source with
  | error failure => exact ⟨0, _, evalText_eq_some_iff.mpr (Or.inl ⟨failure, hread, rfl⟩)⟩
  | ok expr =>
      obtain ⟨n, ev, hev⟩ := eval_returns i e expr hlimit
      exact ⟨n, _, evalText_eq_some_iff.mpr (Or.inr ⟨expr, ev, hread, hev, rfl⟩)⟩

/-- More steps do not change an evaluation that has ended. -/
theorem eval_eq_of_le {m : Nat} {expr : Value} {ev : Evaluation} (hle : n ≤ m)
    (h : i.eval e expr n = some ev) : i.eval e expr m = some ev := by
  obtain ⟨outcome, s, hrun, hev⟩ := run_eq_some_iff.mp h
  exact run_eq_some_iff.mpr ⟨outcome, s, Config.run_eq_of_le hle hrun, hev⟩

/-- More steps do not change a reply. -/
theorem evalText_eq_of_le {m : Nat} (hle : n ≤ m) (h : i.evalText e source n = some r) :
    i.evalText e source m = some r := by
  rcases evalText_eq_some_iff.mp h with hfail | ⟨expr, ev, hread, hev, hr⟩
  · exact evalText_eq_some_iff.mpr (Or.inl hfail)
  · exact evalText_eq_some_iff.mpr (Or.inr ⟨expr, ev, hread, eval_eq_of_le hle hev, hr⟩)

/-- The evaluation of a text changes no environment but its own, as an evaluation does. -/
theorem evalText_evolves (h : i.evalText e source n = some r) :
    Heap.Evolves e i.heap r.interpreter.heap := by
  rcases evalText_eq_some_iff.mp h with ⟨failure, -, rfl⟩ | ⟨expr, ev, -, hev, rfl⟩
  · exact Heap.Evolves.refl i.heap
  · exact run_evolves (eval_goesOn e expr) hev

/-- An evaluation changes no session. -/
theorem eval_session? {a : EnvId} {expr : Value} {ev : Evaluation}
    (h : i.eval e expr n = some ev) (ha : a < i.heap.size) :
    ev.interpreter.session? a = i.session? a := by
  rw [session?, session?, run_sessions_eq (eval_goesOn e expr) h,
    (run_evolves (eval_goesOn e expr) h).session a ha]

/-- Nor does a source text. -/
theorem evalText_session? (h : i.evalText e source n = some r) {a : EnvId} (ha : a < i.heap.size) :
    r.interpreter.session? a = i.session? a := by
  rcases evalText_eq_some_iff.mp h with ⟨failure, -, rfl⟩ | ⟨expr, ev, -, hev, rfl⟩
  · rfl
  · exact eval_session? hev ha

/-- The evaluation of a text keeps every policy of the heap. -/
theorem evalText_obeys {π : Policy} (hsince : π.since ≤ i.heap.size) (hheap : i.heap.Obeys π)
    (he : π.home i.heap.size e) (h : i.evalText e source n = some r) :
    r.interpreter.heap.Obeys π := by
  rcases evalText_eq_some_iff.mp h with ⟨failure, -, rfl⟩ | ⟨expr, ev, hread, hev, rfl⟩
  · exact hheap
  · have hexpr := (read_eq_ok_isDatum hread).good π i.heap.size
    exact (eval_holds hsince hheap he hexpr hev).2.1

/-- Evaluate source texts in order, each in its environment.  With each result
goes the environment it comes from. -/
def evalTexts (steps : Nat) : List (EnvId × Text) → Interpreter →
    Option (List (EnvId × Except Panic Text) × Interpreter)
  | [], i => some ([], i)
  | (e, source) :: rest, i =>
    match i.evalText e source steps with
    | none => none
    | some reply => (evalTexts steps rest reply.interpreter).map fun (results, last) =>
        ((e, reply.result) :: results, last)

section EvalTexts

variable {last : Interpreter} {turns : List (EnvId × Text)}
  {results : List (EnvId × Except Panic Text)}

/-- Turns are taken one after another, each in what the one before has left. -/
theorem evalTexts_cons {source : Text} {reply : Reply}
    (hreply : i.evalText e source n = some reply)
    (hrest : reply.interpreter.evalTexts n turns = some (results, last)) :
    i.evalTexts n ((e, source) :: turns) = some ((e, reply.result) :: results, last) := by
  rw [evalTexts, hreply]
  dsimp only
  rw [hrest]
  rfl

theorem evalTexts_cons_inv {source : Text}
    (h : i.evalTexts n ((e, source) :: turns) = some (results, last)) :
    ∃ reply rest, i.evalText e source n = some reply ∧
      reply.interpreter.evalTexts n turns = some (rest, last) ∧
      results = (e, reply.result) :: rest := by
  rw [evalTexts] at h
  split at h
  · cases h
  · rename_i reply hreply
    obtain ⟨⟨rest, last'⟩, hrest, heq⟩ := Option.map_eq_some_iff.mp h
    cases heq
    exact ⟨reply, rest, hreply, hrest, rfl⟩

/-- More steps do not change what came of the texts. -/
theorem evalTexts_eq_of_le {m : Nat} (hle : n ≤ m)
    (h : i.evalTexts n turns = some (results, last)) :
    i.evalTexts m turns = some (results, last) := by
  induction turns generalizing i results with
  | nil => exact h
  | cons turn rest ih =>
      obtain ⟨e, source⟩ := turn
      obtain ⟨reply, more, hreply, hmore, rfl⟩ := evalTexts_cons_inv h
      exact evalTexts_cons (evalText_eq_of_le hle hreply) (ih hmore)

/-- An environment in which no text is evaluated keeps its bindings and its
session. -/
theorem evalTexts_frame {a : EnvId} (ha : a < i.heap.size) (hfree : ∀ turn ∈ turns, turn.1 ≠ a)
    (h : i.evalTexts n turns = some (results, last)) :
    last.heap.bindings a = i.heap.bindings a ∧ last.session? a = i.session? a := by
  induction turns generalizing i results with
  | nil =>
      cases h
      exact ⟨rfl, rfl⟩
  | cons turn rest ih =>
      obtain ⟨e, source⟩ := turn
      obtain ⟨hne, hfree⟩ := List.forall_mem_cons.mp hfree
      obtain ⟨reply, more, hreply, hmore, rfl⟩ := evalTexts_cons_inv h
      have hev := evalText_evolves hreply
      obtain ⟨hbindings, hsession⟩ := ih (Nat.lt_of_lt_of_le ha hev.size_le) hfree hmore
      exact ⟨hbindings.trans (hev.others a ha (Ne.symm hne)),
        hsession.trans (evalText_session? hreply ha)⟩

end EvalTexts

end Interpreter

end LexLisp
