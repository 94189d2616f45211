import LexLisp.Proofs.Visibility

/-!
# Guarded registration

A native function is registered only under a name that is not in use: neither the environment nor
one above it binds the name (`Heap.InUse`).  The definitions are registered one after the other, so
that each is held against those before it too.

To bind a definition puts one more name in use (`Heap.inUse_define`).  So a list of definitions is
admitted if the first of them is, and the others are once it is bound (`Heap.admits_cons`), and a
definition that is held against the bound ones is held against all before it
(`Heap.offends_define`).  By these two steps the registration comes as far as the definitions are
admitted (`Interpreter.registerAll_registers`).
-/

namespace LexLisp

namespace Bindings

/-- A name that is not bound yet is bound after all others. -/
theorem insert_of_free {bs : Bindings} {name : Text} (h : bs.find? name = none) (v : Value) :
    bs.insert name v = bs ++ [(name, v)] := by
  induction bs with
  | nil => rfl
  | cons b rest ih =>
      obtain ⟨n, w⟩ := b
      rw [find?_cons] at h
      split at h
      · cases h
      · rename_i hne
        rw [insert, if_neg (Ne.symm hne), ih h, List.cons_append]

end Bindings

namespace Heap

/-- A name that is not bound is added after those that are. -/
theorem bindings_define_of_free {h : Heap} {e : EnvId} {name : Text} (he : e < h.size)
    (hfree : (h.bindings e).find? name = none) (v : Value) :
    (h.define e name v).bindings e = h.bindings e ++ [(name, v)] := by
  have hcell : h[e]? = some h[e] := Array.getElem?_eq_getElem he
  rw [← Bindings.insert_of_free hfree]
  simp only [bindings, getElem?_define_self, hcell, Option.map_some, Option.getD_some]

/-- The name is in use in `e`: it is bound there, or in an environment to which the parents lead
from there. -/
def InUse (h : Heap) (e : EnvId) (name : Text) : Prop :=
  ∃ a nearer, h.Ascends a e nearer ∧ ((h.bindings a).find? name).isSome = true

section InUse

variable {h : Heap} {e : EnvId} {name : Text}

/-- A name is in use if it is bound, and otherwise if it is in use in the parent. -/
theorem inUse_iff : h.InUse e name ↔
    ((h.bindings e).find? name).isSome = true ∨ ∃ p, h.parent? e = some p ∧ h.InUse p name := by
  constructor
  · intro hused
    obtain ⟨a, nearer, hup, hbound⟩ := hused
    cases hup with
    | here => exact Or.inl hbound
    | up hp hup => exact Or.inr ⟨_, hp, a, _, hup, hbound⟩
  · intro hused
    rcases hused with hbound | ⟨p, hp, a, nearer, hup, hbound⟩
    · exact ⟨e, [], .here, hbound⟩
    · exact ⟨a, e :: nearer, .up hp hup, hbound⟩

/-- **What is in use is found.** -/
theorem isSome_lookup_iff (hold : ∀ {a p}, h.parent? a = some p → p < a) :
    (h.lookup e name).isSome = true ↔ h.InUse e name := by
  induction e using Nat.strong_induction_on with
  | _ e ih =>
      rw [inUse_iff]
      cases hbound : (h.bindings e).find? name with
      | some w => simp [lookup_of_bound hbound]
      | none =>
          rw [lookup_of_free hold hbound]
          cases hp : h.parent? e with
          | none => simp
          | some p => simpa using ih p (hold hp)

/-- One more name is in use where it has been bound. -/
theorem inUse_define (hold : ∀ {a p}, h.parent? a = some p → p < a) (he : e < h.size) (x : Text)
    (v : Value) : (h.define e x v).InUse e name ↔ name = x ∨ h.InUse e name := by
  have hold' : ∀ {a p}, (h.define e x v).parent? a = some p → p < a :=
    fun hp => hold (by rwa [parent?_define] at hp)
  rw [← isSome_lookup_iff hold', ← isSome_lookup_iff hold]
  by_cases hname : name = x
  · rw [hname, lookup_define_of_sees hold he (h.sees_self e x)]
    simp
  · rw [lookup_define_of_not_sees hold fun hseen => hname hseen.1]
    simp [hname]

end InUse

/-- The definition cannot be registered in `e` after those before it: its name is in use, or one of
them has the same. -/
def Offends (h : Heap) (e : EnvId) (before : List Definition) (d : Definition) : Prop :=
  h.InUse e d.name ∨ d.name ∈ before.map Definition.name

/-- The definitions can all be registered in `e`: their names are pairwise distinct, and none of
them is in use. -/
structure Admits (h : Heap) (e : EnvId) (definitions : List Definition) : Prop where
  distinct : (definitions.map Definition.name).Nodup
  free : ∀ d ∈ definitions, ¬ h.InUse e d.name

theorem admits_nil (h : Heap) (e : EnvId) : h.Admits e [] :=
  ⟨List.nodup_nil, fun _ hd => nomatch hd⟩

/-- Definitions are not admitted together with one that offends after them. -/
theorem Offends.not_admits {h : Heap} {e : EnvId} {before : List Definition} {d : Definition}
    (hd : h.Offends e before d) (after : List Definition) :
    ¬ h.Admits e (before ++ d :: after) := by
  intro hadmits
  obtain ⟨hdistinct, hfree⟩ := hadmits
  rcases hd with hused | hname
  · exact hfree d (List.mem_append_right _ List.mem_cons_self) hused
  · rw [List.map_append, List.map_cons] at hdistinct
    exact (List.nodup_append.mp hdistinct).2.2 _ hname _ List.mem_cons_self rfl

section Step

variable {h : Heap} {e : EnvId} (hold : ∀ {a p}, h.parent? a = some p → p < a) (he : e < h.size)
include hold he

/-- Definitions can be registered if the first is free and the rest can be once it is
bound. -/
theorem admits_cons (d : Definition) (rest : List Definition) (v : Value) :
    h.Admits e (d :: rest) ↔ ¬ h.InUse e d.name ∧ (h.define e d.name v).Admits e rest := by
  constructor
  · intro hadmits
    obtain ⟨hdistinct, hfree⟩ := hadmits
    rw [List.map_cons, List.nodup_cons] at hdistinct
    obtain ⟨hd, hrest⟩ := List.forall_mem_cons.mp hfree
    refine ⟨hd, hdistinct.2, fun c hc hused => ?_⟩
    rcases (inUse_define hold he d.name v).mp hused with hname | hused
    · exact hdistinct.1 (hname ▸ List.mem_map_of_mem hc)
    · exact hrest c hc hused
  · intro hadmits
    obtain ⟨hd, hdistinct, hfree⟩ := hadmits
    refine ⟨?_, List.forall_mem_cons.mpr ⟨hd, fun c hc hused => ?_⟩⟩
    · rw [List.map_cons, List.nodup_cons]
      refine ⟨fun hmem => ?_, hdistinct⟩
      obtain ⟨c, hc, hname⟩ := List.mem_map.mp hmem
      exact hfree c hc ((inUse_define hold he d.name v).mpr (Or.inl hname))
    · exact hfree c hc ((inUse_define hold he d.name v).mpr (Or.inr hused))

theorem offends_define (d : Definition) (v : Value) {before : List Definition} {c : Definition} :
    (h.define e d.name v).Offends e before c ↔ h.Offends e (d :: before) c := by
  rw [Offends, Offends, inUse_define hold he, List.map_cons, List.mem_cons]
  tauto

end Step

end Heap

/-- The complaint about a name in use ends in the name. -/
theorem Mode.name_suffix_conflict (mode : Mode) (name : Text) :
    name <:+ (mode.conflict name).message := by
  cases mode <;> exact List.suffix_append _ _

namespace Interpreter

/-- From `i` to `i'` these definitions were bound in `e` in this mode, and nothing else was
done. -/
structure Registers (mode : Mode) (e : EnvId) (definitions : List Definition)
    (i i' : Interpreter) : Prop where
  sessions : i'.sessions = i.sessions
  size : i'.heap.size = i.heap.size
  others : ∀ a, a ≠ e → i'.heap[a]? = i.heap[a]?
  parent : i'.heap.parent? e = i.heap.parent? e
  session : i'.heap.sessionOf e = i.heap.sessionOf e
  names : (i'.heap.bindings e).map Prod.fst =
    (i.heap.bindings e).map Prod.fst ++ definitions.map Definition.name
  bound : ∀ d ∈ definitions,
    (i'.heap.bindings e).find? d.name = some (.native ⟨d.name, mode, d.primitive⟩)
  kept : ∀ name, name ∉ definitions.map Definition.name →
    (i'.heap.bindings e).find? name = (i.heap.bindings e).find? name

namespace Registers

variable {mode : Mode} {e : EnvId} {i i' : Interpreter}

theorem refl (mode : Mode) (e : EnvId) (i : Interpreter) : Registers mode e [] i i where
  sessions := rfl
  size := rfl
  others _ _ := rfl
  parent := rfl
  session := rfl
  names := (List.append_nil _).symm
  bound _ hd := nomatch hd
  kept _ _ := rfl

/-- One definition is bound before the others. -/
theorem cons {d : Definition} {rest : List Definition} (he : e < i.heap.size)
    (hfree : (i.heap.bindings e).find? d.name = none) (hnew : d.name ∉ rest.map Definition.name)
    (h : Registers mode e rest (i.define e d.name (.native ⟨d.name, mode, d.primitive⟩)) i') :
    Registers mode e (d :: rest) i i' where
  sessions := h.sessions
  size := h.size.trans (Heap.size_define ..)
  others a ha := (h.others a ha).trans (Heap.getElem?_define_of_ne _ _ _ ha)
  parent := h.parent.trans (Heap.parent?_define ..)
  session := h.session.trans (Heap.sessionOf_define ..)
  names := by
    have hown : ((i.define e d.name (.native ⟨d.name, mode, d.primitive⟩)).heap.bindings e) =
        i.heap.bindings e ++ [(d.name, .native ⟨d.name, mode, d.primitive⟩)] :=
      Heap.bindings_define_of_free he hfree _
    rw [h.names, hown, List.map_append, List.append_assoc]
    rfl
  bound := by
    refine List.forall_mem_cons.mpr ⟨?_, h.bound⟩
    rw [h.kept d.name hnew]
    exact (Heap.find?_define ..).trans (if_pos ⟨rfl, he, rfl⟩)
  kept name hname := by
    obtain ⟨hd, hrest⟩ := not_or.mp (mt List.mem_cons.mpr hname)
    rw [h.kept name hrest]
    exact (Heap.find?_define ..).trans (if_neg fun hself => hd hself.2.2)

end Registers

/-- How far a registration comes.  Without a panic all definitions were admitted and are bound.  A
panic is about the first definition that offends, and those before it were admitted and are
bound. -/
def Registered (mode : Mode) (e : EnvId) (definitions : List Definition) (i : Interpreter) :
    Option Panic × Interpreter → Prop
  | (none, i') => i.heap.Admits e definitions ∧ Registers mode e definitions i i'
  | (some p, i') => ∃ before d after, definitions = before ++ d :: after ∧
      i.heap.Admits e before ∧ i.heap.Offends e before d ∧ p = mode.conflict d.name ∧
      Registers mode e before i i'

/-- **The run.**  Each definition is held against the heap in which those before it are bound. -/
theorem registerAll_registers (mode : Mode) {e : EnvId} (definitions : List Definition)
    {i : Interpreter} (hheap : i.heap.WellFormed) (he : e < i.heap.size) :
    Registered mode e definitions i (registerAll mode e definitions i) := by
  induction definitions generalizing i with
  | nil => exact ⟨i.heap.admits_nil e, .refl mode e i⟩
  | cons d rest ih =>
      rw [registerAll]
      split
      · rename_i hused
        have hoffends : i.heap.Offends e [] d :=
          Or.inl ((Heap.isSome_lookup_iff hheap.older).mp hused)
        exact ⟨[], d, rest, rfl, i.heap.admits_nil e, hoffends, rfl, .refl mode e i⟩
      · rename_i hfound
        have hunused : ¬ i.heap.InUse e d.name := mt (Heap.isSome_lookup_iff hheap.older).mpr hfound
        have hfree : (i.heap.bindings e).find? d.name = none := by
          rw [← Option.not_isSome_iff_eq_none]
          exact fun hbound => hunused (Heap.inUse_iff.mpr (Or.inl hbound))
        have hcons := Heap.admits_cons hheap.older he d
        have hoffends := Heap.offends_define hheap.older he d
        have hrest := ih (i := i.define e d.name (.native ⟨d.name, mode, d.primitive⟩))
          (hheap.defineNative e d.name _) (he.trans_eq (Heap.size_define ..).symm)
        -- What is admitted after `d` has another name, so `d` stays bound to what it was bound to.
        have hnew : ∀ {ds}, i.heap.Admits e (d :: ds) → d.name ∉ ds.map Definition.name :=
          fun hadmits => (List.nodup_cons.mp hadmits.distinct).1
        generalize registerAll mode e rest _ = result at hrest ⊢
        obtain ⟨panic, i'⟩ := result
        cases panic with
        | none =>
            obtain ⟨hadmits, hregisters⟩ := hrest
            have hall := (hcons rest _).mpr ⟨hunused, hadmits⟩
            exact ⟨hall, hregisters.cons he hfree (hnew hall)⟩
        | some p =>
            obtain ⟨before, c, after, hsplit, hadmits, hc, hp, hregisters⟩ := hrest
            have hall := (hcons before _).mpr ⟨hunused, hadmits⟩
            exact ⟨d :: before, c, after, by rw [hsplit, List.cons_append], hall,
              (hoffends _).mp hc, hp, hregisters.cons he hfree (hnew hall)⟩

/-- **Registration is guarded and stops at the first conflict.**  In a well-formed heap let any
native definitions be registered in any environment, as functions or as special operators.  There
is no panic if and only if their names are pairwise distinct and none of them is in use, there or
in an environment above; then all of them are bound, after the names that were bound before.

Otherwise there is a panic, and it names the first definition that offends.  Those before it are
bound in the mode that was asked for, and nothing else has been done to any environment. -/
theorem registration_stops_at_first_conflict {i : Interpreter} (hheap : i.heap.WellFormed)
    {e : EnvId} (he : e < i.heap.size) (mode : Mode) {definitions : List Definition}
    (hne : definitions ≠ []) :
    ∃ panic i', i.register mode e definitions = (panic, i') ∧
      (panic = none ↔ i.heap.Admits e definitions) ∧
      (panic = none → Registers mode e definitions i i') ∧
      ∀ p, panic = some p → ∃ before d after, definitions = before ++ d :: after ∧
        i.heap.Admits e before ∧ i.heap.Offends e before d ∧
        p = mode.conflict d.name ∧ d.name <:+ p.message ∧ Registers mode e before i i' := by
  have hregister : i.register mode e definitions = registerAll mode e definitions i := by
    rw [register, if_neg (by simp [hne])]
  have hrun := registerAll_registers mode definitions hheap he
  rw [← hregister] at hrun
  generalize i.register mode e definitions = result at hrun
  match result, hrun with
  | (none, i'), ⟨hadmits, hregisters⟩ =>
      exact ⟨none, i', rfl, iff_of_true rfl hadmits, fun _ => hregisters, fun _ hp => nomatch hp⟩
  | (some p, i'), ⟨before, d, after, hsplit, hadmits, hd, hp, hregisters⟩ =>
      refine ⟨some p, i', rfl, iff_of_false (Option.some_ne_none p) ?_, (nomatch ·), ?_⟩
      · rw [hsplit]
        exact hd.not_admits after
      · rintro _ ⟨⟩
        exact ⟨before, d, after, hsplit, hadmits, hd, hp, hp ▸ mode.name_suffix_conflict d.name,
          hregisters⟩

/-- The third of four functions has the name of the first; that the parent binds the name of the
fourth does not count any more. -/
theorem registration_stops_at_a_repeated_name :
    ∃ (i i' : Interpreter) (definitions : List Definition),
      i = (empty.newRoot.define 0 "x" (.number .zero)).newChild 0 ∧
      definitions = [⟨"a", .first⟩, ⟨"b", .rest⟩, ⟨"a", .list⟩, ⟨"x", .add⟩] ∧
      i.heap.WellFormed ∧ 1 < i.heap.size ∧ definitions ≠ [] ∧
      i.register .eager 1 definitions = (some (.functionDefined "a"), i') ∧
      ¬ i.heap.Admits 1 definitions ∧
      ∃ before d after, definitions = before ++ d :: after ∧ i.heap.Admits 1 before ∧
        i.heap.Offends 1 before d ∧ d.name = "a" ∧ Registers .eager 1 before i i' := by
  obtain ⟨i, hi⟩ : ∃ i : Interpreter,
      i = (empty.newRoot.define 0 "x" (.number .zero)).newChild 0 := ⟨_, rfl⟩
  obtain ⟨definitions, hdefinitions⟩ : ∃ definitions : List Definition,
      definitions = [⟨"a", .first⟩, ⟨"b", .rest⟩, ⟨"a", .list⟩, ⟨"x", .add⟩] := ⟨_, rfl⟩
  have hheap : i.heap.WellFormed := by
    have hroot : empty.newRoot.heap.WellFormed := Heap.WellFormed.empty.pushEmpty _ (by simp)
    have hdefine : (empty.newRoot.define 0 "x" (.number .zero)).heap.WellFormed :=
      hroot.define 0 "x" rfl (Policy.existing.number _ _)
    rw [hi]
    exact hdefine.pushEmpty _ fun p hp => Option.some.inj hp ▸ Nat.zero_lt_one
  have hsize : 1 < i.heap.size := by
    rw [hi]
    decide
  have hne : definitions ≠ [] := by simp [hdefinitions]
  have hpanic : (i.register .eager 1 definitions).1 = some (.functionDefined "a") := by
    rw [hi, hdefinitions]
    decide +kernel
  obtain ⟨panic, i', hregister, hiff, -, hstop⟩ :=
    registration_stops_at_first_conflict hheap hsize .eager hne
  rw [hregister] at hpanic
  obtain rfl : panic = some (.functionDefined "a") := hpanic
  obtain ⟨before, d, after, hsplit, hadmits, hd, hp, -, hregisters⟩ := hstop _ rfl
  exact ⟨i, i', definitions, hi, hdefinitions, hheap, hsize, hne, hregister,
    mt hiff.mpr (Option.some_ne_none _), before, d, after, hsplit, hadmits, hd,
    (Panic.functionDefined.inj hp).symm, hregisters⟩

end Interpreter

end LexLisp
