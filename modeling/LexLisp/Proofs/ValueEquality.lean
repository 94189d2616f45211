import LexLisp.Proofs.PrintRead

/-!
# Equality of values is a partial equivalence

Some values do not equal themselves: what is not a number equals nothing, nor does an invalid
value, nor any list or function in which one of these occurs.  On all other values equality
is an equivalence.

`Value.Same` has a rule for each kind of values that may be equal, and equality decides it
(`Value.equal_iff_same`).  Symmetry and transitivity are shown of the rules, where values of
different kinds do not come up any more.
-/

namespace LexLisp

namespace Number

/-- Finite numbers are equal if they are the same, or zeros. -/
theorem equal_finite {a b : Bool} {r s : Fin finiteCount} :
    (finite a r).equal (finite b s) = true ↔ r = s ∧ (a = b ∨ r.val = 0) := by
  simp [equal]

/-- Infinities are equal when their signs are. -/
theorem equal_infinity {a b : Bool} : (infinity a).equal (infinity b) = true ↔ a = b := by
  simp [equal]

/-- Equality of numbers does not depend on the order. -/
theorem equal_symm {x y : Number} (h : x.equal y = true) : y.equal x = true := by
  cases x with
  | nan => cases h
  | infinity a =>
      cases y with
      | infinity b => exact equal_infinity.mpr (equal_infinity.mp h).symm
      | _ => cases h
  | finite a r =>
      cases y with
      | finite b s =>
          obtain ⟨rfl, hsign⟩ := equal_finite.mp h
          exact equal_finite.mpr ⟨rfl, hsign.imp_left Eq.symm⟩
      | _ => cases h

/-- Numbers equal to one number are equal. -/
theorem equal_trans {x y z : Number} (h : x.equal y = true) (h' : y.equal z = true) :
    x.equal z = true := by
  cases x with
  | nan => cases h
  | infinity a =>
      cases y with
      | infinity b =>
          obtain rfl := equal_infinity.mp h
          exact h'
      | _ => cases h
  | finite a r =>
      cases y with
      | finite b s =>
          cases z with
          | finite c t =>
              obtain ⟨rfl, hab⟩ := equal_finite.mp h
              obtain ⟨rfl, hbc⟩ := equal_finite.mp h'
              exact equal_finite.mpr ⟨rfl, by grind⟩
          | _ => cases h'
      | _ => cases h

/-- What is equal to a number is one itself. -/
theorem ne_nan_of_equal {x y : Number} (h : x.equal y = true) : x ≠ nan := by
  intro hx
  subst hx
  cases h

end Number

namespace Value

mutual

/-- The values are of the same kind, with equal numbers, names, elements and bodies in the
same places, and closures are over the same environment. -/
inductive Same : Value → Value → Prop
  | symbol (name : Text) : Same (symbol name) (symbol name)
  | number {x y : Number} (h : x.equal y = true) : Same (number x) (number y)
  | list {vs ws : List Value} (h : SameAll vs ws) : Same (list vs) (list ws)
  | lambda (formals : List Text) {a b : Value} (h : Same a b) :
      Same (lambda formals a) (lambda formals b)
  | closure (formals : List Text) (env : Option EnvId) {a b : Value} (h : Same a b) :
      Same (closure formals a env) (closure formals b env)
  | native {f g : Native} (hname : f.name = g.name) (hmode : f.mode = g.mode) :
      Same (native f) (native g)
  | absent : Same absent absent

/-- The values are the same one by one. -/
inductive SameAll : List Value → List Value → Prop
  | nil : SameAll [] []
  | cons {v w : Value} {vs ws : List Value} (h : Same v w) (hs : SameAll vs ws) :
      SameAll (v :: vs) (w :: ws)

end

mutual

/-- Values that are the same are equal. -/
theorem Same.equal {v w : Value} (h : Same v w) : v.equal w = true := by
  cases h with
  | symbol name => simp [Value.equal]
  | number h => exact h
  | list h =>
      rw [Value.equal]
      exact h.equalAll
  | lambda formals h => simp [Value.equal, h.equal]
  | closure formals env h => simp [Value.equal, h.equal]
  | native hname hmode => simp [Value.equal, hname, hmode]
  | absent => rfl

/-- The same for lists of values. -/
theorem SameAll.equalAll {vs ws : List Value} (h : SameAll vs ws) : equalAll vs ws = true := by
  cases h with
  | nil => rfl
  | cons h hs => rw [Value.equalAll, h.equal, hs.equalAll, Bool.and_self]

end

mutual

/-- Values that are equal are the same. -/
theorem same_of_equal : ∀ {v w : Value}, v.equal w = true → Same v w
  | symbol a, w, h => by
      cases w with
      | symbol b =>
          have heq : a = b := by simpa [equal] using h
          exact heq ▸ .symbol a
      | _ => cases h
  | number x, w, h => by
      cases w with
      | number y => exact .number h
      | _ => cases h
  | list vs, w, h => by
      cases w with
      | list ws =>
          rw [equal] at h
          exact .list (sameAll_of_equalAll h)
      | _ => cases h
  | lambda fs a, w, h => by
      cases w with
      | lambda gs b =>
          obtain ⟨rfl, hbody⟩ : fs = gs ∧ a.equal b = true := by simpa [equal] using h
          exact .lambda fs (same_of_equal hbody)
      | _ => cases h
  | closure fs a d, w, h => by
      cases w with
      | closure gs b e =>
          obtain ⟨⟨rfl, rfl⟩, hbody⟩ : (d = e ∧ fs = gs) ∧ a.equal b = true := by
            simpa [equal] using h
          exact .closure fs d (same_of_equal hbody)
      | _ => cases h
  | native f, w, h => by
      cases w with
      | native g =>
          obtain ⟨hname, hmode⟩ : f.name = g.name ∧ f.mode = g.mode := by simpa [equal] using h
          exact .native hname hmode
      | _ => cases h
  | invalid code, w, h => by cases w <;> cases h
  | absent, w, h => by
      cases w with
      | absent => exact .absent
      | _ => cases h

/-- The same for lists of values. -/
theorem sameAll_of_equalAll : ∀ {vs ws : List Value}, equalAll vs ws = true → SameAll vs ws
  | [], ws, h => by
      cases ws with
      | nil => exact .nil
      | cons w ws => cases h
  | v :: vs, ws, h => by
      cases ws with
      | nil => cases h
      | cons w ws =>
          obtain ⟨hv, hvs⟩ : v.equal w = true ∧ equalAll vs ws = true := by
            simpa [equalAll] using h
          exact .cons (same_of_equal hv) (sameAll_of_equalAll hvs)

end

/-- **What equality decides.** -/
theorem equal_iff_same {v w : Value} : v.equal w = true ↔ Same v w :=
  ⟨same_of_equal, Same.equal⟩

mutual

/-- Sameness does not depend on the order. -/
theorem Same.symm {v w : Value} (h : Same v w) : Same w v := by
  cases h with
  | symbol name => exact .symbol name
  | number h => exact .number (Number.equal_symm h)
  | list h => exact .list h.symm
  | lambda formals h => exact .lambda formals h.symm
  | closure formals env h => exact .closure formals env h.symm
  | native hname hmode => exact .native hname.symm hmode.symm
  | absent => exact .absent

theorem SameAll.symm {vs ws : List Value} (h : SameAll vs ws) : SameAll ws vs := by
  cases h with
  | nil => exact .nil
  | cons h hs => exact .cons h.symm hs.symm

end

mutual

/-- Values the same as one value are the same. -/
theorem Same.trans {u v w : Value} (h : Same u v) (h' : Same v w) : Same u w := by
  cases h with
  | symbol name => exact h'
  | number h =>
      cases h' with
      | number h' => exact .number (Number.equal_trans h h')
  | list h =>
      cases h' with
      | list h' => exact .list (h.trans h')
  | lambda formals h =>
      cases h' with
      | lambda _ h' => exact .lambda formals (h.trans h')
  | closure formals env h =>
      cases h' with
      | closure _ _ h' => exact .closure formals env (h.trans h')
  | native hname hmode =>
      cases h' with
      | native hname' hmode' => exact .native (hname.trans hname') (hmode.trans hmode')
  | absent => exact h'

theorem SameAll.trans {us vs ws : List Value} (h : SameAll us vs) (h' : SameAll vs ws) :
    SameAll us ws := by
  cases h with
  | nil => exact h'
  | cons h hs =>
      cases h' with
      | cons h' hs' => exact .cons (h.trans h') (hs.trans hs')

end

mutual

/-- In a value that is the same as any there is nothing that equals nothing. -/
theorem Same.everywhere {v w : Value} (h : Same v w) :
    v.Everywhere fun u => u ≠ number .nan ∧ ∀ code, u ≠ invalid code := by
  cases h with
  | number h =>
      refine ⟨?_, fun _ => Value.noConfusion⟩
      intro heq
      exact Number.ne_nan_of_equal h (number.inj heq)
  | list h => exact ⟨⟨Value.noConfusion, fun _ => Value.noConfusion⟩, h.everywhereIn⟩
  | lambda formals h => exact ⟨⟨Value.noConfusion, fun _ => Value.noConfusion⟩, h.everywhere⟩
  | closure formals env h => exact ⟨⟨Value.noConfusion, fun _ => Value.noConfusion⟩, h.everywhere⟩
  | symbol name => exact ⟨Value.noConfusion, fun _ => Value.noConfusion⟩
  | native hname hmode => exact ⟨Value.noConfusion, fun _ => Value.noConfusion⟩
  | absent => exact ⟨Value.noConfusion, fun _ => Value.noConfusion⟩

/-- Lists that are the same contain nothing that differs from itself. -/
theorem SameAll.everywhereIn {vs ws : List Value} (h : SameAll vs ws) :
    EverywhereIn (fun u => u ≠ number .nan ∧ ∀ code, u ≠ invalid code) vs := by
  cases h with
  | nil => trivial
  | cons h hs => exact ⟨h.everywhere, hs.everywhereIn⟩

end

/-- The value `w` occurs in another: it is that value, or it occurs in an element of that list
or in the body of that function. -/
inductive OccursIn (w : Value) : Value → Prop
  | self : OccursIn w w
  | inList {cells : List Value} {v : Value} (hv : v ∈ cells) (h : OccursIn w v) :
      OccursIn w (list cells)
  | inLambda (formals : List Text) {body : Value} (h : OccursIn w body) :
      OccursIn w (lambda formals body)
  | inClosure (formals : List Text) (env : Option EnvId) {body : Value} (h : OccursIn w body) :
      OccursIn w (closure formals body env)

/-- What holds everywhere in a value holds of what occurs in it. -/
theorem Everywhere.of_occursIn {ok : Value → Prop} {v w : Value} (h : v.Everywhere ok)
    (hw : w.OccursIn v) : ok w := by
  induction hw with
  | self => exact h.self
  | inList hv _ ih => exact ih (everywhereIn_iff.mp h.2 _ hv)
  | inLambda _ _ ih => exact ih h.2
  | inClosure _ _ _ ih => exact ih h.2

mutual

/-- What holds of all that occurs in a value holds everywhere in it. -/
theorem everywhere_of_occursIn {ok : Value → Prop} :
    ∀ {v : Value}, (∀ w, w.OccursIn v → ok w) → v.Everywhere ok
  | list _, h => ⟨h _ .self, everywhereIn_of_occursIn fun _ hv _ hw => h _ (.inList hv hw)⟩
  | lambda _ _, h => ⟨h _ .self, everywhere_of_occursIn fun _ hw => h _ (.inLambda _ hw)⟩
  | closure _ _ _, h => ⟨h _ .self, everywhere_of_occursIn fun _ hw => h _ (.inClosure _ _ hw)⟩
  | symbol _, h | number _, h | native _, h | invalid _, h | absent, h => h _ .self

theorem everywhereIn_of_occursIn {ok : Value → Prop} :
    ∀ {vs : List Value}, (∀ v ∈ vs, ∀ w, w.OccursIn v → ok w) → EverywhereIn ok vs
  | [], _ => trivial
  | _ :: _, h =>
      ⟨everywhere_of_occursIn (h _ List.mem_cons_self),
        everywhereIn_of_occursIn fun v hv => h v (List.mem_cons_of_mem _ hv)⟩

end

/-- To hold everywhere in a value is to hold of all that occurs in it. -/
theorem everywhere_iff {ok : Value → Prop} {v : Value} :
    v.Everywhere ok ↔ ∀ w, w.OccursIn v → ok w :=
  ⟨fun h _ hw => h.of_occursIn hw, everywhere_of_occursIn⟩

/-- **Equality is a partial equivalence**: it is symmetric and transitive, and a value equals
itself exactly if nothing that is not a number and no invalid value occurs in it. -/
theorem equality_is_partial_equivalence :
    (∀ v w : Value, v.equal w = w.equal v) ∧
    (∀ u v w : Value, u.equal v = true → v.equal w = true → u.equal w = true) ∧
    ∀ v : Value, v.equal v = true ↔
      ∀ w, w.OccursIn v → w ≠ number .nan ∧ ∀ code, w ≠ invalid code := by
  refine ⟨?_, ?_, ?_⟩
  · intro v w
    rw [Bool.eq_iff_iff, equal_iff_same, equal_iff_same]
    exact ⟨Same.symm, Same.symm⟩
  · intro u v w huv hvw
    exact ((equal_iff_same.mp huv).trans (equal_iff_same.mp hvw)).equal
  · intro v
    rw [← everywhere_iff]
    exact ⟨fun h => (equal_iff_same.mp h).everywhere, equal_self⟩

/-- Zeros of both signs are equal wherever they stand, while a closure whose body holds what
is not a number does not equal itself. -/
theorem zeros_are_equal_in_functions :
    ∃ u v w : Value,
      u = list [.lambda ["x"] (.number .zero), absent] ∧
      v = list [.lambda ["x"] (.number (.ofRank true 0)), absent] ∧
      w = closure [] (list [.symbol "x", .number .nan]) none ∧
      u.equal v = true ∧ v.equal u = true ∧ u.equal u = true ∧ ¬ w.equal w = true := by
  obtain ⟨hsymm, htrans, hself⟩ := equality_is_partial_equivalence
  refine ⟨_, _, _, rfl, rfl, rfl, ?_⟩
  have huv : (list [.lambda ["x"] (.number .zero), absent]).equal
      (list [.lambda ["x"] (.number (.ofRank true 0)), absent]) = true := by decide
  have hvu := (hsymm _ _).trans huv
  refine ⟨huv, hvu, htrans _ _ _ huv hvu, ?_⟩
  intro h
  have hnan := (hself _).mp h (.number .nan) (.inClosure [] none (.inList (by simp) .self))
  exact hnan.1 rfl

end Value

end LexLisp
