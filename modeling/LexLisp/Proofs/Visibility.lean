import LexLisp.Proofs.EnvironmentHeap

/-!
# From where a definition is seen

A name that is bound in `e` is seen from `f` if the way up from `f` by parents leads to `e` and
no environment on the way binds the name (`Heap.Sees`).  A definition changes what is looked up
from there, and only that: a lookup that ends before it gets to `e` ends as it did, and so
does one that never gets there (`Heap.lookup_define_of_not_sees`).
-/

namespace LexLisp

namespace Heap

/-- The way up from `f` to `e` by parents leaves these environments behind, the nearest to `f`
first. -/
inductive Ascends (h : Heap) (e : EnvId) : EnvId → List EnvId → Prop
  | here : Ascends h e e []
  | up {f p : EnvId} {nearer : List EnvId} (hp : h.parent? f = some p)
      (hup : Ascends h e p nearer) : Ascends h e f (f :: nearer)

/-- A binding of the name in `e` is seen from `f`: the way up leads to `e`, and no environment
that is left behind binds the name. -/
def Sees (h : Heap) (f e : EnvId) (name : Text) : Prop :=
  ∃ nearer, h.Ascends e f nearer ∧ ∀ a ∈ nearer, (h.bindings a).find? name = none

theorem sees_self (h : Heap) (e : EnvId) (name : Text) : h.Sees e e name :=
  ⟨[], .here, by simp⟩

/-- What is seen from the parent is seen through an environment that does not bind it. -/
theorem Sees.up {h : Heap} {f p e : EnvId} {name : Text} (hsees : h.Sees p e name)
    (hp : h.parent? f = some p) (hfree : (h.bindings f).find? name = none) :
    h.Sees f e name := by
  obtain ⟨nearer, hup, hnearer⟩ := hsees
  exact ⟨f :: nearer, .up hp hup, List.forall_mem_cons.mpr ⟨hfree, hnearer⟩⟩

section Lookup

variable {h : Heap} {f : EnvId} {name : Text}

/-- A name that an environment binds itself is not looked up any further. -/
theorem lookup_of_bound {w : Value} (hbound : (h.bindings f).find? name = some w) :
    h.lookup f name = some w := by
  obtain ⟨rest, hchain⟩ := h.chain_eq_cons f
  rw [lookup, hchain, List.findSome?_cons, hbound]

/-- Any other name has the value that it has in the parent, if there is one. -/
theorem lookup_of_free (hold : ∀ {a p}, h.parent? a = some p → p < a)
    (hfree : (h.bindings f).find? name = none) :
    h.lookup f name = (h.parent? f).bind (h.lookup · name) := by
  rw [lookup, chain]
  cases hp : h.parent? f with
  | none =>
      dsimp only
      rw [List.findSome?_cons, hfree]
      rfl
  | some p =>
      dsimp only
      rw [if_pos (hold hp), List.findSome?_cons, hfree]
      rfl

end Lookup

section Define

variable {h : Heap} {e f : EnvId} {x : Text} {v : Value}
  (hold : ∀ {a p}, h.parent? a = some p → p < a)
include hold

/-- **A definition is found** from wherever it is seen. -/
theorem lookup_define_of_sees (he : e < h.size) (hsees : h.Sees f e x) :
    (h.define e x v).lookup f x = some v := by
  have hown : ((h.define e x v).bindings e).find? x = some v := by
    rw [find?_define, if_pos ⟨rfl, he, rfl⟩]
  obtain ⟨nearer, hup, hnearer⟩ := hsees
  induction hup with
  | here => exact lookup_of_bound hown
  | @up f p nearer hp hup ih =>
      obtain ⟨hfree, hrest⟩ := List.forall_mem_cons.mp hnearer
      by_cases hf : f = e
      · rw [hf]
        exact lookup_of_bound hown
      · have hfree' : ((h.define e x v).bindings f).find? x = none := by
          rw [bindings_define_of_ne h x v hf]
          exact hfree
        rw [lookup_of_free (fun hp => hold (by rwa [parent?_define] at hp)) hfree', parent?_define,
          hp]
        exact ih hrest

/-- **Every other lookup** gives what it gave before. -/
theorem lookup_define_of_not_sees {y : Text} (hnot : ¬ (y = x ∧ h.Sees f e x)) :
    (h.define e x v).lookup f y = h.lookup f y := by
  induction f using Nat.strong_induction_on with
  | _ f ih =>
      have hsame : ((h.define e x v).bindings f).find? y = (h.bindings f).find? y := by
        rw [find?_define]
        apply if_neg
        intro hself
        obtain ⟨hf, -, hy⟩ := hself
        rw [hf] at hnot
        exact hnot ⟨hy, h.sees_self e x⟩
      cases hbound : (h.bindings f).find? y with
      | some w => rw [lookup_of_bound hbound, lookup_of_bound (hsame.trans hbound)]
      | none =>
          rw [lookup_of_free hold hbound,
            lookup_of_free (fun hp => hold (by rwa [parent?_define] at hp)) (hsame.trans hbound),
            parent?_define]
          cases hp : h.parent? f with
          | none => rfl
          | some p =>
              apply ih p (hold hp)
              intro hseen
              obtain ⟨hy, hsees⟩ := hseen
              exact hnot ⟨hy, hsees.up hp (hy ▸ hbound)⟩

end Define

end Heap

namespace Interpreter

variable {i : Interpreter}

/-- A definition changes no call stack. -/
theorem stackOf_define (i : Interpreter) (e : EnvId) (name : Text) (v : Value) (f : EnvId) :
    (i.define e name v).stackOf f = i.stackOf f := by
  simp [stackOf, session?, define]

theorem get_of_lookup {i' : Interpreter} {f : EnvId} {name : Text}
    (hlookup : i'.heap.lookup f name = i.heap.lookup f name)
    (hstack : i'.stackOf f = i.stackOf f) : i'.get f name = i.get f name := by
  rw [get, get, hlookup, raise, raise, hstack]

/-- A name has a value, or it is undefined. -/
theorem get_value_or_undefined (i : Interpreter) (f : EnvId) (name : Text) :
    (∃ w, i.get f name = .ok w) ∨
      ∃ err, i.get f name = .error err ∧ err.cause = .undefined name := by
  rw [get]
  cases i.heap.lookup f name with
  | some w => exact Or.inl ⟨w, rfl⟩
  | none => exact Or.inr ⟨_, rfl, rfl⟩

/-- **Exact visibility of a definition.**  In a well-formed heap a value that is there can be
bound to `x` in any environment `e`.  After that, `x` has this value wherever the binding in `e`
is seen: in `e`, and in those environments from which the parents lead to `e` before they lead to
another one that binds `x`.  Everywhere else, and for every other name, what is looked up is what
it was before: the same value, or the same complaint that the name is undefined. -/
theorem definition_is_seen_exactly_from_below (hheap : i.heap.WellFormed) {e : EnvId}
    (he : e < i.heap.size) (x : Text) {v : Value} (hv : v.isAbsent = false) :
    ∃ i', i.put e x v = .ok i' ∧ ∀ f y,
      (y = x ∧ i.heap.Sees f e x → i'.get f y = .ok v) ∧
      (¬ (y = x ∧ i.heap.Sees f e x) →
        i'.get f y = i.get f y ∧
          ((∃ w, i.get f y = .ok w) ∨
            ∃ err, i.get f y = .error err ∧ err.cause = .undefined y)) := by
  refine ⟨i.define e x v, by simp [put, hv], ?_⟩
  intro f y
  constructor
  · intro hseen
    obtain ⟨hy, hsees⟩ := hseen
    have hlookup : (i.define e x v).heap.lookup f x = some v :=
      Heap.lookup_define_of_sees hheap.older he hsees
    rw [hy, get, hlookup]
  · intro hnot
    exact ⟨get_of_lookup (Heap.lookup_define_of_not_sees hheap.older hnot)
      (stackOf_define i e x v f), get_value_or_undefined i f y⟩

/-- Of three environments in a row the middle one binds `x`.  A definition in the oldest is
seen there, and not from the youngest. -/
theorem shadowed_definition_is_not_seen :
    ∃ i i' : Interpreter,
      i = ((empty.newRoot.newChild 0).define 1 "x" (.number .zero)).newChild 1 ∧
      i.heap.WellFormed ∧ 0 < i.heap.size ∧ Value.isAbsent (.symbol "a") = false ∧
      i.put 0 "x" (.symbol "a") = .ok i' ∧
      i.heap.Sees 0 0 "x" ∧ i'.get 0 "x" = .ok (.symbol "a") ∧
      ¬ i.heap.Sees 2 0 "x" ∧ i'.get 2 "x" = .ok (.number .zero) := by
  obtain ⟨i, hi⟩ : ∃ i : Interpreter,
      i = ((empty.newRoot.newChild 0).define 1 "x" (.number .zero)).newChild 1 := ⟨_, rfl⟩
  have hheap : i.heap.WellFormed := by
    have hroot : empty.newRoot.heap.WellFormed := Heap.WellFormed.empty.pushEmpty _ (by simp)
    have hchild : (empty.newRoot.newChild 0).heap.WellFormed :=
      hroot.pushEmpty _ fun p hp => Option.some.inj hp ▸ Nat.zero_lt_one
    have hdefine : ((empty.newRoot.newChild 0).define 1 "x" (.number .zero)).heap.WellFormed :=
      hchild.define 1 "x" rfl (Policy.existing.number _ _)
    rw [hi]
    exact hdefine.pushEmpty _ fun p hp => Option.some.inj hp ▸ Nat.one_lt_two
  have hsize : 0 < i.heap.size := by
    rw [hi]
    decide
  have hparent : i.heap.parent? 2 = some 1 := by
    rw [hi]
    rfl
  have hfree : (i.heap.bindings 2).find? "x" = none := by
    rw [hi]
    rfl
  have hbound : (i.heap.bindings 1).find? "x" = some (.number .zero) := by
    rw [hi]
    rfl
  have hnot : ¬ i.heap.Sees 2 0 "x" := by
    intro hsees
    obtain ⟨nearer, hup, hnearer⟩ := hsees
    cases hup with
    | up hp hup =>
        cases hparent.symm.trans hp
        cases hup with
        | up hp hup => cases hbound.symm.trans (hnearer 1 (by simp))
  have hshadow : i.get 2 "x" = .ok (.number .zero) := by
    rw [get, Heap.lookup_of_free hheap.older hfree, hparent, Option.bind_some,
      Heap.lookup_of_bound hbound]
  obtain ⟨i', hput, hget⟩ := definition_is_seen_exactly_from_below hheap hsize "x"
    (show Value.isAbsent (.symbol "a") = false from rfl)
  have hself : i.heap.Sees 0 0 "x" := Heap.sees_self _ 0 _
  refine ⟨i, i', hi, hheap, hsize, rfl, hput, hself, (hget 0 "x").1 ⟨rfl, hself⟩, hnot, ?_⟩
  rw [((hget 2 "x").2 fun hseen => hnot hseen.2).1]
  exact hshadow

end Interpreter

end LexLisp
