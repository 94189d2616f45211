import LexLisp.Proofs.Renaming

/-!
# Two heaps that mirror each other

An evaluation sees only the environments it can get to.  `Heap.Mirrors f D h h'`
says that the part `D` of the heap `h` is found in `h'` under the names that `f`
gives: parents and bindings correspond, and older environments have smaller
names in both.  Of the rest of the two heaps nothing is said.

If `D` is all that an evaluation may work in (`Policy.within`), then the same
evaluation on `h'` takes the same steps and keeps the two heaps mirrored
(`Config.step_follows`), with the environments created meanwhile corresponding
in the order of their creation.  It has the same outcome under other names
(`Interpreter.eval_mirrors`).
-/

namespace LexLisp

/-- Work in the environments of `D` only, among which are all that will be
created, and with closures over such. -/
def Policy.within (D : EnvId → Prop) (since : Nat) (hD : ∀ a, since ≤ a → D a) : Policy where
  since := since
  home n a := D a ∧ a < n
  ok n v := ∀ formals body e, v = .closure formals body (some e) → D e ∧ e < n
  home_succ := by
    intro n a hn
    constructor
    · rintro ⟨ha, hlt⟩
      rcases Nat.lt_succ_iff_lt_or_eq.mp hlt with hlt | heq
      · exact Or.inr ⟨ha, hlt⟩
      · exact Or.inl heq
    · rintro (rfl | ⟨ha, hlt⟩)
      · exact ⟨hD a hn, Nat.lt_succ_self a⟩
      · exact ⟨ha, Nat.lt_succ_of_lt hlt⟩
  ok_succ _ h formals body e hv := ⟨(h formals body e hv).1, Nat.lt_succ_of_lt (h formals body e hv).2⟩
  symbol _ _ _ _ _ h := nomatch h
  number _ _ _ _ _ h := nomatch h
  list _ _ _ _ _ h := nomatch h
  closure := by
    rintro n env formals body henv _ _ e heq
    cases heq
    exact henv
  captured h := h _ _ _ rfl

namespace Bindings

variable (f : EnvId → EnvId)

/-- The bindings with captured environments renamed. -/
def rename (bs : Bindings) : Bindings :=
  bs.map fun (name, v) => (name, v.rename f)

theorem rename_id (bs : Bindings) : bs.rename id = bs := by
  induction bs with
  | nil => rfl
  | cons b rest ih =>
      obtain ⟨n, v⟩ := b
      have hcons : rename id ((n, v) :: rest) = (n, v.rename id) :: rename id rest := rfl
      rw [hcons, Value.rename_id, ih]

/-- A name is bound to the renamed value. -/
theorem find?_rename (bs : Bindings) (name : Text) :
    (bs.rename f).find? name = (bs.find? name).map (Value.rename f) := by
  induction bs with
  | nil => rfl
  | cons b rest ih =>
      obtain ⟨n, v⟩ := b
      have hcons : rename f ((n, v) :: rest) = (n, v.rename f) :: rename f rest := rfl
      rw [hcons, find?_cons, find?_cons, ih]
      split
      · rfl
      · rfl

/-- To bind and to rename can be done in either order. -/
theorem insert_rename (bs : Bindings) (name : Text) (v : Value) :
    (bs.insert name v).rename f = (bs.rename f).insert name (v.rename f) := by
  induction bs with
  | nil => rfl
  | cons b rest ih =>
      obtain ⟨n, w⟩ := b
      have hcons : rename f ((n, w) :: rest) = (n, w.rename f) :: rename f rest := rfl
      rw [hcons, insert, insert]
      split
      · rfl
      · rw [← ih]
        rfl

/-- Bindings made of renamed values are renamed bindings. -/
theorem ofPairs_rename (pairs : List (Text × Value)) :
    (ofPairs pairs).rename f = ofPairs (pairs.map fun (name, v) => (name, v.rename f)) := by
  have hfold : ∀ (pairs : List (Text × Value)) (bs : Bindings),
      (pairs.foldl (fun bs (name, v) => bs.insert name v) bs).rename f =
        (pairs.map fun (name, v) => (name, v.rename f)).foldl
          (fun bs (name, v) => bs.insert name v) (bs.rename f) := by
    intro pairs
    induction pairs with
    | nil => exact fun bs => rfl
    | cons pair rest ih =>
        intro bs
        rw [List.foldl_cons, List.map_cons, List.foldl_cons, ih, insert_rename]
  exact hfold pairs []

/-- Formals are bound to renamed arguments. -/
theorem bindFormals_rename (formals : List Text) (args : List Value) :
    (Machine.bindFormals formals args).rename f =
      Machine.bindFormals formals (args.map (Value.rename f)) := by
  have hpresent : ((fun pair : Text × Value => !pair.2.isAbsent) ∘ Prod.map id (Value.rename f)) =
      fun pair => !pair.2.isAbsent := by
    funext pair
    simp
  rw [Machine.bindFormals, Machine.bindFormals, ofPairs_rename, List.zip_map_right,
    List.takeWhile_map, hpresent]
  rfl

end Bindings

namespace Heap

/-- What is in `D` of the heap `h` is in `h'` under the names given by `f`. -/
structure Mirrors (f : EnvId → EnvId) (D : EnvId → Prop) (h h' : Heap) : Prop where
  lt : ∀ {a}, D a → a < h.size → f a < h'.size
  strict : ∀ {a b}, D a → D b → a < b → b < h.size → f a < f b
  parent : ∀ {a}, D a → a < h.size → h'.parent? (f a) = (h.parent? a).map f
  bindings : ∀ {a}, D a → a < h.size → h'.bindings (f a) = (h.bindings a).rename f

namespace Mirrors

variable {f : EnvId → EnvId} {D : EnvId → Prop} {h h' : Heap} {since : Nat}
  {hD : ∀ a, since ≤ a → D a}

/-- Different environments are mirrored by different ones. -/
theorem ne (hm : Mirrors f D h h') {a b : EnvId} (ha : D a) (hb : D b) (hah : a < h.size)
    (hbh : b < h.size) (hne : a ≠ b) : f a ≠ f b := by
  rcases Nat.lt_or_gt_of_ne hne with hab | hba
  · exact Nat.ne_of_lt (hm.strict ha hb hab hbh)
  · exact Nat.ne_of_gt (hm.strict hb ha hba hah)

/-- Names are looked up along corresponding chains. -/
theorem chain (hm : Mirrors f D h h') (hobeys : h.Obeys (.within D since hD)) {e : EnvId}
    (he : D e ∧ e < h.size) : h'.chain (f e) = (h.chain e).map f := by
  fun_induction Heap.chain h e with
  | case1 e p hp hlt ih =>
      have hhome : D p ∧ p < h.size := (hobeys e he).2 p hp
      have hp' : h'.parent? (f e) = some (f p) := by rw [hm.parent he.1 he.2, hp, Option.map_some]
      have hlt' : f p < f e := hm.strict hhome.1 he.1 hlt he.2
      rw [Heap.chain, hp']
      simp only [hlt', if_true, List.map_cons, ih hhome]
  | case2 e p hp hge =>
      have hhome : D p ∧ p < h.size := (hobeys e he).2 p hp
      have hp' : h'.parent? (f e) = some (f p) := by rw [hm.parent he.1 he.2, hp, Option.map_some]
      have hge' : ¬ f p < f e := by
        rcases Nat.lt_or_eq_of_le (Nat.le_of_not_lt hge) with hlt | rfl
        · exact Nat.not_lt_of_gt (hm.strict he.1 hhome.1 hlt hhome.2)
        · exact Nat.lt_irrefl _
      rw [Heap.chain, hp']
      simp only [hge', if_false, List.map_cons, List.map_nil]
  | case3 e hp =>
      have hp' : h'.parent? (f e) = none := by rw [hm.parent he.1 he.2, hp, Option.map_none]
      rw [Heap.chain, hp']
      rfl

/-- A variable has the renamed value in the mirror. -/
theorem lookup (hm : Mirrors f D h h') (hobeys : h.Obeys (.within D since hD)) {e : EnvId}
    (he : D e ∧ e < h.size) (name : Text) :
    h'.lookup (f e) name = (h.lookup e name).map (Value.rename f) := by
  have hchain := hobeys.chain (e := e) he
  rw [Heap.lookup, Heap.lookup, hm.chain hobeys he, List.findSome?_map]
  generalize h.chain e = as at hchain
  induction as with
  | nil => rfl
  | cons a rest ih =>
      obtain ⟨ha, hrest⟩ := List.forall_mem_cons.mp hchain
      have hfind : (h'.bindings (f a)).find? name =
          ((h.bindings a).find? name).map (Value.rename f) := by
        rw [hm.bindings ha.1 ha.2, Bindings.find?_rename]
      rw [List.findSome?_cons, List.findSome?_cons, Function.comp_apply, hfind]
      cases (h.bindings a).find? name with
      | none => exact ih hrest
      | some v => rfl

theorem refl (D : EnvId → Prop) (h : Heap) : Mirrors id D h h where
  lt _ hlt := hlt
  strict _ _ hab _ := hab
  parent _ _ := (congrFun Option.map_id _).symm
  bindings _ _ := (Bindings.rename_id _).symm

/-- Only the names of environments that are there matter. -/
theorem congr {g : EnvId → EnvId} (hm : Mirrors f D h h')
    (hobeys : h.Obeys (.within D since hD)) (hfg : ∀ a < h.size, f a = g a) :
    Mirrors g D h h' := by
  refine ⟨?_, ?_, ?_, ?_⟩
  · intro a ha hlt
    rw [← hfg a hlt]
    exact hm.lt ha hlt
  · intro a b ha hb hab hlt
    rw [← hfg a (Nat.lt_trans hab hlt), ← hfg b hlt]
    exact hm.strict ha hb hab hlt
  · intro a ha hlt
    rw [← hfg a hlt, hm.parent ha hlt]
    cases hp : h.parent? a with
    | none => rfl
    | some p =>
        have hhome : D p ∧ p < h.size := (hobeys a ⟨ha, hlt⟩).2 p hp
        rw [Option.map_some, Option.map_some, hfg p hhome.2]
  · intro a ha hlt
    rw [← hfg a hlt, hm.bindings ha hlt]
    apply List.map_congr_left
    intro b hb
    have hgood := (hobeys a ⟨ha, hlt⟩).1 b hb
    have hvalue : b.2.rename f = b.2.rename g := by
      apply Value.rename_congr
      refine hgood.mono ?_
      intro w hw formals body e heq
      exact hfg e (hw formals body e heq).2
    exact congrArg (Prod.mk b.1) hvalue

/-- The names can be chosen so that those ahead correspond. -/
theorem exists_ahead (hm : Mirrors f D h h') (hobeys : h.Obeys (.within D since hD)) :
    ∃ g, (∀ a < h.size, g a = f a) ∧ Mirrors g D h h' ∧ ∀ n, g (h.size + n) = h'.size + n := by
  let g : EnvId → EnvId := fun a => if a < h.size then f a else h'.size + (a - h.size)
  have hg : ∀ a < h.size, g a = f a := fun a ha => if_pos ha
  refine ⟨g, hg, hm.congr hobeys fun a ha => (hg a ha).symm, ?_⟩
  intro n
  have hge : ¬ h.size + n < h.size := Nat.not_lt_of_ge (Nat.le_add_right _ _)
  show (if h.size + n < h.size then f (h.size + n) else h'.size + (h.size + n - h.size)) = _
  rw [if_neg hge, Nat.add_sub_cancel_left]

/-- Work in an environment that mirrors nothing disturbs nothing. -/
theorem evolves (hm : Mirrors f D h h') {h'' : Heap} {e : EnvId} (hev : Heap.Evolves e h' h'')
    (hfree : ∀ a, D a → a < h.size → f a ≠ e) : Mirrors f D h h'' where
  lt ha hlt := Nat.lt_of_lt_of_le (hm.lt ha hlt) hev.size_le
  strict := hm.strict
  parent ha hlt := (hev.parent _ (hm.lt ha hlt)).trans (hm.parent ha hlt)
  bindings ha hlt := (hev.others _ (hm.lt ha hlt) (hfree _ ha hlt)).trans (hm.bindings ha hlt)

/-- A binding made on both sides keeps the mirror. -/
theorem define (hm : Mirrors f D h h') {e : EnvId} (he : D e ∧ e < h.size) (name : Text)
    (v : Value) : Mirrors f D (h.define e name v) (h'.define (f e) name (v.rename f)) := by
  refine ⟨?_, ?_, ?_, ?_⟩
  · intro a ha hlt
    rw [size_define] at hlt ⊢
    exact hm.lt ha hlt
  · intro a b ha hb hab hlt
    rw [size_define] at hlt
    exact hm.strict ha hb hab hlt
  · intro a ha hlt
    rw [size_define] at hlt
    rw [parent?_define, parent?_define]
    exact hm.parent ha hlt
  · intro a ha hlt
    rw [size_define] at hlt
    by_cases hae : a = e
    · subst hae
      have hlt' := hm.lt ha hlt
      have hold := hm.bindings ha hlt
      simp only [Heap.bindings, getElem?_define_self, Array.getElem?_eq_getElem hlt,
        Array.getElem?_eq_getElem hlt', Option.map_some, Option.getD_some] at hold ⊢
      rw [hold, Bindings.insert_rename]
    · rw [bindings_define_of_ne h name v hae,
        bindings_define_of_ne h' name _ (hm.ne ha he.1 hlt he.2 hae)]
      exact hm.bindings ha hlt

/-- Two environments that are created alike mirror each other. -/
theorem push (hm : Mirrors f D h h') (hnext : f h.size = h'.size) (parent : Option EnvId)
    (sid sid' : SessionId) (bs : Bindings) :
    Mirrors f D (h.push ⟨parent, sid, bs⟩) (h'.push ⟨parent.map f, sid', bs.rename f⟩) := by
  have hold : ∀ {a : EnvId}, a < (h.push ⟨parent, sid, bs⟩).size → a ≠ h.size → a < h.size := by
    intro a hlt hne
    rw [Array.size_push] at hlt
    exact Nat.lt_of_le_of_ne (Nat.le_of_lt_succ hlt) hne
  refine ⟨?_, ?_, ?_, ?_⟩
  · intro a ha hlt
    rw [Array.size_push]
    by_cases hae : a = h.size
    · rw [hae, hnext]
      exact Nat.lt_succ_self _
    · exact Nat.lt_succ_of_lt (hm.lt ha (hold hlt hae))
  · intro a b ha hb hab hlt
    by_cases hbe : b = h.size
    · subst hbe
      rw [hnext]
      exact hm.lt ha hab
    · exact hm.strict ha hb hab (hold hlt hbe)
  · intro a ha hlt
    by_cases hae : a = h.size
    · rw [hae, hnext, parent?_push_self, parent?_push_self]
    · have hlt' := hold hlt hae
      rw [parent?_push_of_ne h _ hae, parent?_push_of_ne h' _ (Nat.ne_of_lt (hm.lt ha hlt'))]
      exact hm.parent ha hlt'
  · intro a ha hlt
    by_cases hae : a = h.size
    · rw [hae, hnext, bindings_push_self, bindings_push_self]
    · have hlt' := hold hlt hae
      rw [bindings_push_of_ne h _ hae, bindings_push_of_ne h' _ (Nat.ne_of_lt (hm.lt ha hlt'))]
      exact hm.bindings ha hlt'

end Mirrors

end Heap

/-- The state `s'` has the same call stack as `s`, and what is in `D` of its
heap.  The environments that are created next correspond, too. -/
structure State.Mirrors (f : EnvId → EnvId) (D : EnvId → Prop) (s s' : State) : Prop where
  stack : s'.stack = s.stack
  heap : s.heap.Mirrors f D s'.heap
  ahead : ∀ n, f (s.heap.size + n) = s'.heap.size + n

variable {f : EnvId → EnvId} {D : EnvId → Prop} {since : Nat} {hD : ∀ a, since ≤ a → D a}

namespace State.Mirrors

variable {s s' : State}

theorem pushFrame (h : Mirrors f D s s') (env env' : EnvId) (frame : Frame) :
    Mirrors f D (Machine.pushFrame env frame s) (Machine.pushFrame env' frame s') :=
  ⟨congrArg (CallStack.push · frame) h.stack, h.heap, h.ahead⟩

theorem pop (h : Mirrors f D s s') :
    Mirrors f D { s with stack := s.stack.pop } { s' with stack := s'.stack.pop } :=
  ⟨congrArg CallStack.pop h.stack, h.heap, h.ahead⟩

/-- A definition made on both sides keeps the states mirrored. -/
theorem define (h : Mirrors f D s s') {e : EnvId} (he : D e ∧ e < s.heap.size) (name : Text)
    (v : Value) : Mirrors f D { s with heap := s.heap.define e name v }
      { s' with heap := s'.heap.define (f e) name (v.rename f) } := by
  refine ⟨h.stack, h.heap.define he name v, ?_⟩
  intro n
  rw [Heap.size_define, Heap.size_define]
  exact h.ahead n

/-- An environment created on both sides keeps the states mirrored. -/
theorem push (h : Mirrors f D s s') (parent : Option EnvId) (sid sid' : SessionId)
    (bs : Bindings) : Mirrors f D { s with heap := s.heap.push ⟨parent, sid, bs⟩ }
      { s' with heap := s'.heap.push ⟨parent.map f, sid', bs.rename f⟩ } := by
  refine ⟨h.stack, h.heap.push (h.ahead 0) parent sid sid' bs, ?_⟩
  intro n
  rw [Array.size_push, Array.size_push, Nat.add_assoc, Nat.add_assoc]
  exact h.ahead (1 + n)

end State.Mirrors

namespace Machine

open Config

variable {env : EnvId} {k : List Pending} {s s' : State}

/-- The configuration `d'` is `d` under other names, in a state that mirrors
the state of `d`. -/
def Follows (f : EnvId → EnvId) (D : EnvId → Prop) (d d' : Config) : Prop :=
  ∃ s', d' = d.rename f s' ∧ State.Mirrors f D d.state s'

/-- A function is entered alike in the mirror. -/
theorem enter_follows (h : State.Mirrors f D s s') (name : Text) (callee : Callee)
    (args : List Value) :
    Follows f D (enter env name callee args k s)
      (enter (f env) name (callee.rename f) (args.map (Value.rename f))
        (k.map (Pending.rename f)) s') := by
  simp only [enter, h.stack, Callee.isClosure_rename]
  split
  · exact ⟨s', fail_rename k h.stack (.overflow s.stack.maxHeight name), h⟩
  · have hpushed := h.pushFrame env (f env) ⟨name, callee.isClosure⟩
    cases callee with
    | native g =>
        refine ⟨_, perform_rename (.leave :: k) hpushed.stack g.primitive args, ?_⟩
        rw [runCallee, (perform_goesOn env _ _ g.primitive args).state]
        exact hpushed
    | closure formals body captured =>
        have hfresh := hpushed.push captured (s.heap.sessionOf env) (s'.heap.sessionOf (f env))
          (bindFormals formals args)
        have habsent : (args.map (Value.rename f)).any Value.isAbsent = args.any Value.isAbsent := by
          simp [List.any_map, Function.comp_def]
        simp only [runCallee, Callee.rename, habsent, ← Bindings.bindFormals_rename]
        split
        · exact ⟨_, rfl, hfresh⟩
        · refine ⟨_, ?_, hfresh⟩
          have hnext : f s.heap.size = s'.heap.size := h.ahead 0
          simp only [Config.rename, Control.rename, pushFrame, hnext]
          rfl

/-- A call is left alike in the mirror. -/
theorem leave_follows (h : State.Mirrors f D s s') (outcome : Outcome) :
    Follows f D (leave outcome k s) (leave (outcome.rename f) (k.map (Pending.rename f)) s') := by
  simp only [leave, h.stack]
  split
  · exact ⟨s', rfl, h⟩
  · exact ⟨_, rfl, h.stack ▸ h.pop⟩

/-- Pending work goes on alike in the mirror. -/
theorem resume_follows (h : State.Mirrors f D s s') (v : Value) (p : Pending)
    (hp : ∀ env, p.env? = some env → D env ∧ env < s.heap.size) :
    Follows f D (resume v p k s)
      (resume (v.rename f) (p.rename f) (k.map (Pending.rename f)) s') := by
  -- A rule that leaves the state alone leaves it mirrored.
  have hquiet : ∀ {env d}, GoesOn env k s d → State.Mirrors f D d.state s' := by
    intro env d hon
    exact hon.state ▸ h
  cases p with
  | operator env head operands =>
      exact ⟨s', callHead_rename k h.stack head v operands,
        hquiet (callHead_goesOn env k s head v operands)⟩
  | operand env name callee done todo =>
      exact ⟨s', evalOperands_rename k name callee (v :: done) todo,
        hquiet (evalOperands_goesOn env k s name callee (v :: done) todo)⟩
  | leave => exact leave_follows h (.value v)
  | define env name =>
      simp only [Pending.rename, resume, Value.isAbsent_rename]
      split
      · exact ⟨s', rfl, h⟩
      · exact ⟨_, rfl, h.define (hp env rfl) name v⟩
  | choose env yes no =>
      cases v with
      | number x =>
          refine ⟨s', ?_, h⟩
          simp only [Pending.rename, Value.rename, resume, Config.rename, Control.rename]
          split <;> rfl
      | _ =>
          refine ⟨s', ?_, h⟩
          exact refuse_about_rename k h.stack (.misused .choose .conditionIsNumber)
            (fun _ => rfl) _
  | applied env operands => exact ⟨s', rfl, h⟩
  | arguments env g =>
      cases v with
      | list cells =>
          exact ⟨s', callValue_rename k h.stack g (.list cells),
            hquiet (callValue_goesOn env k s g (.list cells))⟩
      | _ =>
          refine ⟨s', ?_, h⟩
          exact refuse_about_rename k h.stack (.misused .apply .operandsAreList) (fun _ => rfl) _

end Machine

namespace Config

/-- **Mirrored steps.**  A step that keeps to `D` is taken alike where `D` is
mirrored. -/
theorem step_follows {c : Config} {s' : State} (hc : c.Holds (.within D since hD))
    (h : State.Mirrors f D c.state s') :
    Machine.Follows f D c.step (c.rename f s').step := by
  obtain ⟨control, pending, s⟩ := c
  cases control with
  | eval env expr =>
      have henv := hc.envs env (by simp [Control.env?])
      have heval := Machine.eval_rename pending h.stack expr (h.heap.lookup hc.heap henv)
      refine ⟨s', heval, ?_⟩
      rw [Config.step, (Machine.eval_goesOn env pending s expr).state]
      exact h
  | enter env name callee args => exact Machine.enter_follows h name callee args
  | done outcome =>
      cases pending with
      | nil => exact ⟨s', rfl, h⟩
      | cons p k =>
          cases outcome with
          | value v =>
              refine Machine.resume_follows h v p ?_
              intro env henv
              exact hc.envs env (by simp [henv])
          | failure failure =>
              cases p with
              | leave =>
                  have hleave := Machine.leave_follows (k := k) h (.failure failure)
                  cases failure <;> exact hleave
              | _ => cases failure <;> exact ⟨s', rfl, h⟩

/-- **Mirrored runs.**  A run that keeps to `D` ends alike where `D` is mirrored,
after as many steps. -/
theorem run_follows {base : CallStack} {n : Nat} {c : Config} {s' : State} {outcome : Outcome}
    {t : State} (hc : c.Holds (.within D since hD)) (hbalanced : Balanced base c)
    (h : State.Mirrors f D c.state s') (hrun : run n c = some (outcome, t)) :
    ∃ t', run n (c.rename f s') = some (outcome.rename f, t') ∧ State.Mirrors f D t t' := by
  induction n generalizing c s' with
  | zero =>
      obtain ⟨control, pending, s⟩ := c
      cases control with
      | done result =>
          cases pending with
          | nil =>
              cases hrun
              exact ⟨s', rfl, h⟩
          | cons _ _ => simp [run] at hrun
      | eval _ _ => simp [run] at hrun
      | enter _ _ _ _ => simp [run] at hrun
  | succ n ih =>
      rw [run_succ] at hrun ⊢
      obtain ⟨s'', hstep, hs''⟩ := step_follows hc h
      rw [hstep]
      exact ih (hc.step hbalanced) hbalanced.step hs'' hrun

end Config

namespace Interpreter

/-- **Mirrored evaluations.**  An evaluation that keeps to `D` has the same
outcome where `D` is mirrored, under other names, and leaves it mirrored. -/
theorem eval_mirrors {i i' : Interpreter} {e : EnvId} {expr : Value} {n : Nat} {ev : Evaluation}
    (hsince : since ≤ i.heap.size) (hobeys : i.heap.Obeys (.within D since hD))
    (he : D e ∧ e < i.heap.size) (hexpr : (Policy.within D since hD).Good i.heap.size expr)
    (hstack : i'.stackOf (f e) = i.stackOf e) (hheap : i.heap.Mirrors f D i'.heap)
    (hahead : ∀ n, f (i.heap.size + n) = i'.heap.size + n) (h : i.eval e expr n = some ev) :
    ∃ ev', i'.eval (f e) (expr.rename f) n = some ev' ∧
      ev'.outcome = ev.outcome.rename f ∧
      ev.interpreter.heap.Mirrors f D ev'.interpreter.heap := by
  obtain ⟨outcome, s, hrun, rfl⟩ := run_eq_some_iff.mp h
  have hall : Config.All ((Policy.within D since hD).Good i.heap.size)
      ⟨.eval e expr, [], i.state e⟩ :=
    Config.all_mk.mpr ⟨fun v hv => List.mem_singleton.mp hv ▸ hexpr, by simp⟩
  have hbegin := (eval_goesOn e expr (i.state e)).holds hsince hobeys he hall
  have hstate : State.Mirrors f D (i.state e) (i'.state (f e)) := ⟨hstack, hheap, hahead⟩
  obtain ⟨t', hrun', hmirrors⟩ :=
    Config.run_follows hbegin (eval_goesOn e expr _).balanced hstate hrun
  exact ⟨_, run_eq_some_iff.mpr ⟨_, t', hrun', rfl⟩, rfl, hmirrors.heap⟩

end Interpreter

end LexLisp
