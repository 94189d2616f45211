import LexLisp.Proofs.SessionIsolation

/-!
# Fresh environments are alike

Two user environments that are created with the same settings are twins, whatever else there
is in their interpreters and whenever they were created: each is all that can be got to from
it, and what can be got to is the same under other names (`Twins`).  Whatever is evaluated in
one of them has the outcome it has in the other, but for the names, and they stay twins
(`Twins.eval`).
-/

namespace LexLisp

/-- Of the names that a heap has yet to give nothing needs to be mirrored. -/
theorem Heap.Mirrors.of_size (f : EnvId → EnvId) (h h' : Heap) : Mirrors f (h.size ≤ ·) h h' where
  lt hle hlt := absurd hlt (Nat.not_lt_of_ge hle)
  strict _ hle _ hlt := absurd hlt (Nat.not_lt_of_ge hle)
  parent hle hlt := absurd hlt (Nat.not_lt_of_ge hle)
  bindings hle hlt := absurd hlt (Nat.not_lt_of_ge hle)

namespace Interpreter

/-- What can be got to from `e` in `i` is what can be got to from `e'` in `i'`, under other
names, and their sessions are the same. -/
structure Twins (e : EnvId) (i : Interpreter) (e' : EnvId) (i' : Interpreter) : Prop where
  lt : e < i.heap.size
  obeys : i.heap.Obeys (.above e)
  session : ∃ session, i.session? e = some session ∧ i'.session? e' = some session
  mirrored : ∃ f, i.heap.Mirrors f (e ≤ ·) i'.heap ∧ f e = e'

/-- A new environment has a session of its own, with the default limit and no reader. -/
theorem newRoot_session?_self (i : Interpreter) :
    i.newRoot.session? i.nextEnv = some ⟨.empty CallStack.defaultMaxHeight, false⟩ := by
  have hid : i.newRoot.heap.sessionOf i.nextEnv = i.sessions.size :=
    Heap.sessionOf_push_self i.heap _
  rw [session?, hid]
  exact Array.getElem?_push_size

/-- New environments without bindings are twins, in whatever interpreters. -/
theorem twins_newRoot (i i' : Interpreter) : Twins i.nextEnv i.newRoot i'.nextEnv i'.newRoot := by
  have hmirrors := (Heap.Mirrors.of_size (fun _ => i'.nextEnv) i.heap i'.heap).push rfl none
    i.sessions.size i'.sessions.size []
  refine ⟨?_, newRoot_obeys i, ⟨_, newRoot_session?_self i, newRoot_session?_self i'⟩,
    _, hmirrors, rfl⟩
  exact Nat.lt_of_lt_of_eq (Nat.lt_succ_self _) (Array.size_push _).symm

namespace Twins

variable {e e' : EnvId} {i i' : Interpreter}

theorem stackOf_eq (h : Twins e i e' i') : i'.stackOf e' = i.stackOf e := by
  obtain ⟨session, hsession, hsession'⟩ := h.session
  rw [stackOf_of_session? hsession, stackOf_of_session? hsession']

theorem lt_right (h : Twins e i e' i') : e' < i'.heap.size := by
  obtain ⟨f, hm, hf⟩ := h.mirrored
  exact hf ▸ hm.lt (Nat.le_refl e) h.lt

/-- Twins bind the same names. -/
theorem isSome_lookup (h : Twins e i e' i') (name : Text) :
    (i'.heap.lookup e' name).isSome = (i.heap.lookup e name).isSome := by
  obtain ⟨f, hm, hf⟩ := h.mirrored
  rw [← hf, hm.lookup h.obeys.within ⟨Nat.le_refl e, h.lt⟩, Option.isSome_map]

/-- A native function may be bound in both. -/
theorem define (h : Twins e i e' i') (name : Text) (g : Native) :
    Twins e (i.define e name (.native g)) e' (i'.define e' name (.native g)) := by
  obtain ⟨session, hsession, hsession'⟩ := h.session
  obtain ⟨f, hm, hf⟩ := h.mirrored
  have hdefine := hm.define ⟨Nat.le_refl e, h.lt⟩ name (.native g)
  rw [hf] at hdefine
  refine ⟨?_, h.obeys.define (Policy.native_above e _ g), ⟨session, ?_, ?_⟩, f, hdefine, hf⟩
  · exact Nat.lt_of_lt_of_eq h.lt (Heap.size_define ..).symm
  · rw [← hsession]
    simp [session?, Interpreter.define]
  · rw [← hsession']
    simp [session?, Interpreter.define]

/-- The same may be done to both sessions. -/
theorem modifySession (h : Twins e i e' i') (g : Session → Session) :
    Twins e (i.modifySession e g) e' (i'.modifySession e' g) := by
  obtain ⟨session, hsession, hsession'⟩ := h.session
  refine ⟨h.lt, h.obeys, ⟨g session, ?_, ?_⟩, h.mirrored⟩
  · rw [session?_modifySession, hsession, Option.map_some]
  · rw [session?_modifySession, hsession', Option.map_some]

/-- Registration stops at the same name in both, if it does. -/
theorem registerAll (h : Twins e i e' i') (mode : Mode) (definitions : List Definition) :
    (registerAll mode e' definitions i').1 = (registerAll mode e definitions i).1 ∧
      Twins e (registerAll mode e definitions i).2 e' (registerAll mode e' definitions i').2 := by
  induction definitions generalizing i i' with
  | nil => exact ⟨rfl, h⟩
  | cons d rest ih =>
      rw [Interpreter.registerAll, Interpreter.registerAll, h.isSome_lookup]
      split
      · exact ⟨rfl, h⟩
      · exact ih (h.define d.name _)

/-- So does the registration of what a user environment binds. -/
theorem register (h : Twins e i e' i') (mode : Mode) :
    (i'.register mode e' []).1 = (i.register mode e []).1 ∧
      Twins e (i.register mode e []).2 e' (i'.register mode e' []).2 :=
  h.registerAll mode mode.defaults

/-- A setting fails for both twins with one failure, or leaves them twins. -/
theorem applySetting (h : Twins e i e' i') (setting : Setting) :
    (∃ failure, i.applySetting e setting = .error failure ∧
      i'.applySetting e' setting = .error failure) ∨
    ∃ j j', i.applySetting e setting = .ok j ∧ i'.applySetting e' setting = .ok j' ∧
      Twins e j e' j' := by
  cases setting with
  | maxHeight n =>
      refine Or.inr ⟨_, _, rfl, rfl, ?_⟩
      rw [h.stackOf_eq]
      exact h.modifySession _
  | reader given =>
      cases given with
      | true => exact Or.inr ⟨_, _, rfl, rfl, h.modifySession _⟩
      | false => exact Or.inl ⟨_, rfl, rfl⟩
  | logger given =>
      cases given with
      | true => exact Or.inr ⟨_, _, rfl, rfl, h⟩
      | false => exact Or.inl ⟨_, rfl, rfl⟩
  | errorOutput => exact Or.inr ⟨_, _, rfl, rfl, h⟩

/-- Settings fail at the same place in both, if they do. -/
theorem applySettings (h : Twins e i e' i') (settings : List Setting) :
    (applySettings e' settings i').1 = (applySettings e settings i).1 ∧
      Twins e (applySettings e settings i).2 e' (applySettings e' settings i').2 := by
  induction settings generalizing i i' with
  | nil => exact ⟨rfl, h⟩
  | cons setting rest ih =>
      rw [Interpreter.applySettings, Interpreter.applySettings]
      rcases h.applySetting setting with ⟨failure, hi, hi'⟩ | ⟨j, j', hi, hi', hj⟩
      · rw [hi, hi']
        exact ⟨rfl, h⟩
      · rw [hi, hi']
        exact ih hj

/-- To set twins up has the same result and leaves them twins. -/
theorem setUp (h : Twins e i e' i') (settings : List Setting) :
    (i'.setUp e' settings).1 = (i.setUp e settings).1 ∧
      Twins e (i.setUp e settings).2 e' (i'.setUp e' settings).2 := by
  unfold Interpreter.setUp
  obtain ⟨hpanic, hspecial⟩ := h.register .special
  rcases hs : i.register .special e [] with ⟨ps, is⟩
  rcases hs' : i'.register .special e' [] with ⟨ps', is'⟩
  rw [hs, hs'] at hpanic hspecial
  obtain rfl : ps' = ps := hpanic
  cases ps' with
  | some p => exact ⟨rfl, hspecial⟩
  | none =>
      dsimp only
      obtain ⟨hpanic, heager⟩ := hspecial.register .eager
      rcases he : is.register .eager e [] with ⟨pe, ie⟩
      rcases he' : is'.register .eager e' [] with ⟨pe', ie'⟩
      rw [he, he'] at hpanic heager
      obtain rfl : pe' = pe := hpanic
      cases pe' with
      | some p => exact ⟨rfl, heager⟩
      | none => exact heager.applySettings settings

/-- A datum evaluated in a twin gives a value that has a text, or an error, and never a
panic. -/
theorem whole_or_error (h : Twins e i e' i') {expr : Value} (hdatum : expr.IsDatum) {n : Nat}
    {ev : Evaluation} (hev : i.eval e expr n = some ev) :
    (∃ v, v.isWhole = true ∧ ev.outcome = .value v) ∨
      ∃ err, ev.outcome = .failure (.error err) := by
  have hvalues := (eval_holds (Nat.le_of_lt h.lt) h.obeys ⟨⟨Nat.le_refl e, h.lt⟩, trivial⟩
    (hdatum.good (.above e) i.heap.size) hev).2.2
  exact Outcome.whole_or_error fun v hv => (hvalues v hv).isWhole fun _ hok => hok.2

/-- **Evaluation in twins.**  A datum has the same outcome in both, but for the names, and
they stay twins. -/
theorem eval (h : Twins e i e' i') {expr : Value} (hdatum : expr.IsDatum) {n : Nat}
    {ev : Evaluation} (hev : i.eval e expr n = some ev) :
    ∃ ev', i'.eval e' expr n = some ev' ∧ (∃ f, ev'.outcome = ev.outcome.rename f) ∧
      Twins e ev.interpreter e' ev'.interpreter := by
  obtain ⟨session, hsession, hsession'⟩ := h.session
  obtain ⟨f, hm, hf⟩ := h.mirrored
  -- The environments that the evaluation creates get the names ahead on both sides.
  obtain ⟨g, hgf, hg, hahead⟩ := hm.exists_ahead h.obeys.within
  have hge : g e = e' := (hgf e h.lt).trans hf
  have hstack : i'.stackOf (g e) = i.stackOf e := by
    rw [hge]
    exact h.stackOf_eq
  have hhome : e ≤ e ∧ e < i.heap.size := ⟨Nat.le_refl e, h.lt⟩
  obtain ⟨ev', hev', hout, hm'⟩ := eval_mirrors (Nat.le_of_lt h.lt) h.obeys.within hhome
    (hdatum.good _ _) hstack hg hahead hev
  rw [hge, hdatum.rename] at hev'
  have hevolves := run_evolves (eval_goesOn e expr) hev
  refine ⟨ev', hev', ⟨g, hout⟩, ?_, ?_, ⟨session, ?_, ?_⟩, g, hm', hge⟩
  · exact Nat.lt_of_lt_of_le h.lt hevolves.size_le
  · exact (eval_holds (Nat.le_of_lt h.lt) h.obeys ⟨hhome, trivial⟩ (hdatum.good _ _) hev).2.1
  · exact (eval_session? hev h.lt).trans hsession
  · exact (eval_session? hev' h.lt_right).trans hsession'

end Twins

/-- **Fresh environments.**  User environments created with the same settings are twins, and
the settings fail in both or in neither. -/
theorem newUser_twins (i i' : Interpreter) (settings : List Setting) :
    (i'.newUser settings).1 = (i.newUser settings).1 ∧
      Twins i.nextEnv (i.newUser settings).2 i'.nextEnv (i'.newUser settings).2 :=
  (twins_newRoot i i').setUp (.reader true :: settings)

end Interpreter

end LexLisp
