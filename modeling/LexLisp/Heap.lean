import LexLisp.Value.Basic

/-!
# Environments

An environment binds names to values and may have a parent, in which the names
are looked up that it does not bind itself.  Environments never go away: the
heap keeps them in the order of their creation, and an environment is named by
its place in that order.

`Heap.chain` lists the environments in which a name is looked up, and
`Heap.lookup` finds it in the first of them that binds it.  Parents are older
than their children, so the chain is finite.
-/

namespace LexLisp

/-- Names with their values, each name once. -/
abbrev Bindings := List (Text × Value)

namespace Bindings

/-- The value bound to a name. -/
def find? (bs : Bindings) (name : Text) : Option Value :=
  bs.lookup name

/-- Bind a name, in place of any value it had. -/
def insert (name : Text) (v : Value) : Bindings → Bindings
  | [] => [(name, v)]
  | (n, w) :: rest => if n = name then (n, v) :: rest else (n, w) :: insert name v rest

@[simp] theorem find?_nil (name : Text) : find? [] name = none := rfl

@[simp] theorem find?_cons (n : Text) (v : Value) (bs : Bindings) (name : Text) :
    find? ((n, v) :: bs) name = if name = n then some v else bs.find? name := by
  by_cases h : name = n
  · simp [find?, h]
  · have hne : (name == n) = false := beq_eq_false_iff_ne.mpr h
    simp [find?, List.lookup_cons, hne, h]

/-- The name that was bound has the new value. -/
@[simp] theorem find?_insert_self (name : Text) (v : Value) (bs : Bindings) :
    (bs.insert name v).find? name = some v := by
  induction bs with
  | nil => simp [insert]
  | cons b rest ih =>
      obtain ⟨n, w⟩ := b
      by_cases h : n = name
      · simp [insert, h]
      · simp [insert, h, Ne.symm h, ih]

/-- Every other name has the value it had. -/
theorem find?_insert_of_ne {name other : Text} (hne : other ≠ name) (v : Value)
    (bs : Bindings) : (bs.insert name v).find? other = bs.find? other := by
  induction bs with
  | nil => simp [insert, hne]
  | cons b rest ih =>
      obtain ⟨n, w⟩ := b
      by_cases h : n = name
      · subst h
        simp [insert, hne]
      · simp [insert, h, ih]

/-- Bind names in order.  Of two equal ones the later wins. -/
def ofPairs (pairs : List (Text × Value)) : Bindings :=
  pairs.foldl (fun bs (name, v) => bs.insert name v) []

end Bindings

/-- A session, named by its place in the order of creation. -/
abbrev SessionId := Nat

/-- An environment: its parent if it has one, the session it belongs to, and
the names bound in it. -/
structure Environment where
  parent : Option EnvId
  session : SessionId
  bindings : Bindings
  deriving Repr

/-- All environments, in the order of their creation. -/
abbrev Heap := Array Environment

namespace Heap

/-- The parent of an environment. -/
def parent? (h : Heap) (e : EnvId) : Option EnvId :=
  h[e]?.bind Environment.parent

/-- The session of an environment. -/
def sessionOf (h : Heap) (e : EnvId) : SessionId :=
  (h[e]?.map Environment.session).getD 0

/-- The names bound in an environment itself. -/
def bindings (h : Heap) (e : EnvId) : Bindings :=
  (h[e]?.map Environment.bindings).getD []

/-- An environment, its parent, and so on to the one that has none. -/
def chain (h : Heap) (e : EnvId) : List EnvId :=
  match h.parent? e with
  | some p => if p < e then e :: chain h p else [e]
  | none => [e]

/-- A chain begins with the environment itself. -/
theorem chain_eq_cons (h : Heap) (e : EnvId) : ∃ rest, h.chain e = e :: rest := by
  unfold chain
  split
  · split
    · exact ⟨_, rfl⟩
    · exact ⟨[], rfl⟩
  · exact ⟨[], rfl⟩

/-- The value of a name in the nearest environment of the chain that binds
it. -/
def lookup (h : Heap) (e : EnvId) (name : Text) : Option Value :=
  (h.chain e).findSome? fun a => (h.bindings a).find? name

/-- Bind a name in an environment itself. -/
def define (h : Heap) (e : EnvId) (name : Text) (v : Value) : Heap :=
  h.modify e fun env => { env with bindings := env.bindings.insert name v }

end Heap

end LexLisp
