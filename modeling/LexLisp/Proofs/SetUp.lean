import LexLisp.Interpreter.SetUp
import LexLisp.Proofs.ValueInvariant

/-!
# Setting up and forking environments

Setting up an environment binds the native functions of the language in it and
changes its session (`Furnishes`).  Nothing else is done to the heap
(`setUp_heap`).  A fork adds an environment and a session, and leaves what is
there.
-/

namespace LexLisp

/-- The native function is one of the language's own, under its own name. -/
def Native.IsDefault (g : Native) : Prop :=
  ∃ d ∈ g.mode.defaults, g = ⟨d.name, g.mode, d.primitive⟩

namespace Interpreter

theorem stackOf_of_session? {i : Interpreter} {e : EnvId} {session : Session}
    (h : i.session? e = some session) : i.stackOf e = session.stack := by
  rw [stackOf, h]
  rfl

/-- Setting up an environment adds native functions of the language to the heap,
leaves all environments in their sessions, and takes a reader from none of them. -/
structure Furnishes (i i' : Interpreter) : Prop where
  size : i'.heap.size = i.heap.size
  sessions : i'.sessions.size = i.sessions.size
  sessionOf : ∀ a, i'.heap.sessionOf a = i.heap.sessionOf a
  reader : ∀ a, i.hasReader a = true → i'.hasReader a = true
  obeys : ∀ {π : Policy}, (∀ n g, g.IsDefault → π.Good n (.native g)) →
    i.heap.Obeys π → i'.heap.Obeys π

namespace Furnishes

variable {i i' i'' : Interpreter}

theorem refl (i : Interpreter) : Furnishes i i :=
  ⟨rfl, rfl, fun _ => rfl, fun _ h => h, fun _ h => h⟩

theorem trans (h : Furnishes i i') (h' : Furnishes i' i'') : Furnishes i i'' where
  size := h'.size.trans h.size
  sessions := h'.sessions.trans h.sessions
  sessionOf a := (h'.sessionOf a).trans (h.sessionOf a)
  reader a hread := h'.reader a (h.reader a hread)
  obeys hnative hobeys := h'.obeys hnative (h.obeys hnative hobeys)

/-- To bind a primitive of the defaults is to furnish. -/
theorem define (i : Interpreter) (e : EnvId) (name : Text) {g : Native} (hg : g.IsDefault) :
    Furnishes i (i.define e name (.native g)) where
  size := Heap.size_define ..
  sessions := rfl
  sessionOf _ := Heap.sessionOf_define ..
  reader a hread := by
    rw [← hread]
    simp [hasReader, session?, Interpreter.define]
  obeys hnative hobeys := hobeys.define (hnative _ g hg)

/-- To change a session is to furnish, as long as a reader is kept. -/
theorem modifySession (i : Interpreter) (e : EnvId) {f : Session → Session}
    (hf : ∀ session, session.hasReader = true → (f session).hasReader = true) :
    Furnishes i (i.modifySession e f) where
  size := rfl
  sessions := Array.size_modify
  sessionOf _ := rfl
  reader a hread := by
    unfold hasReader session? at hread ⊢
    show ((i.sessions.modify (i.heap.sessionOf e) f)[i.heap.sessionOf a]?).any
      Session.hasReader = true
    rw [Array.getElem?_modify]
    cases hsession : i.sessions[i.heap.sessionOf a]? with
    | none => simp [hsession] at hread
    | some session =>
        rw [hsession, Option.any_some] at hread
        split
        · exact hf session hread
        · exact hread
  obeys _ h := h

end Furnishes

/-- To register definitions of the defaults is to furnish, also if one of them fails. -/
theorem registerAll_furnishes (mode : Mode) (e : EnvId) {definitions : List Definition}
    (hdefaults : definitions ⊆ mode.defaults) (i : Interpreter) :
    Furnishes i (registerAll mode e definitions i).2 := by
  induction definitions generalizing i with
  | nil => exact .refl i
  | cons d rest ih =>
      rw [registerAll]
      split
      · exact .refl i
      · obtain ⟨hd, hrest⟩ := List.cons_subset.mp hdefaults
        exact (Furnishes.define i e d.name ⟨d, hd, rfl⟩).trans (ih hrest _)

/-- To apply settings is to furnish, also if one of them fails. -/
theorem applySettings_furnishes (e : EnvId) (settings : List Setting) (i : Interpreter) :
    Furnishes i (applySettings e settings i).2 := by
  induction settings generalizing i with
  | nil => exact .refl i
  | cons setting rest ih =>
      rw [applySettings]
      split
      · rename_i i' happly
        refine Furnishes.trans ?_ (ih i')
        unfold applySetting at happly
        split at happly
        all_goals cases happly
        · exact .modifySession i e fun _ h => h
        · exact .modifySession i e fun _ _ => rfl
        · exact .refl i
        · exact .refl i
      · exact .refl i

theorem register_furnishes (i : Interpreter) (mode : Mode) (e : EnvId) :
    Furnishes i (i.register mode e []).2 :=
  registerAll_furnishes mode e (List.Subset.refl _) i

/-- To set an environment up is to furnish. -/
theorem setUp_furnishes (i : Interpreter) (e : EnvId) (settings : List Setting) :
    Furnishes i (i.setUp e settings).2 := by
  have hspecial := register_furnishes i .special e
  unfold setUp
  rcases hs : i.register .special e [] with ⟨ps, is⟩
  rw [hs] at hspecial
  cases ps with
  | some p => exact hspecial
  | none =>
      have heager := register_furnishes is .eager e
      dsimp only
      rcases he : is.register .eager e [] with ⟨pe, ie⟩
      rw [he] at heager
      cases pe with
      | some p => exact hspecial.trans heager
      | none => exact (hspecial.trans heager).trans (applySettings_furnishes e settings ie)

/-- Settings do nothing to the heap. -/
theorem applySettings_heap (e : EnvId) (settings : List Setting) (i : Interpreter) :
    (applySettings e settings i).2.heap = i.heap := by
  induction settings generalizing i with
  | nil => rfl
  | cons setting rest ih =>
      rw [applySettings]
      split
      · rename_i i' happly
        rw [ih]
        unfold applySetting at happly
        split at happly
        all_goals cases happly
        all_goals rfl
      · rfl

section Natives

variable {P : Heap → Prop} {i : Interpreter}
  (hdefine : ∀ h e name g, P h → P (h.define e name (.native g)))
include hdefine

/-- Registration does nothing to the heap but to bind native functions. -/
theorem registerAll_heap (mode : Mode) (e : EnvId) (definitions : List Definition)
    (i : Interpreter) (h : P i.heap) : P (registerAll mode e definitions i).2.heap := by
  induction definitions generalizing i with
  | nil => exact h
  | cons d rest ih =>
      rw [registerAll]
      split
      · exact h
      · exact ih _ (hdefine _ _ _ _ h)

/-- What registering keeps of a heap holds of the heap afterwards. -/
theorem register_heap (mode : Mode) (e : EnvId) (definitions : List Definition)
    (h : P i.heap) : P (i.register mode e definitions).2.heap :=
  registerAll_heap hdefine mode e _ i h

/-- What binding native functions keeps true of a heap, a set-up keeps true. -/
theorem setUp_heap (e : EnvId) (settings : List Setting) (h : P i.heap) :
    P (i.setUp e settings).2.heap := by
  have hspecial := register_heap hdefine .special e [] h
  unfold setUp
  rcases hs : i.register .special e [] with ⟨ps, is⟩
  rw [hs] at hspecial
  cases ps with
  | some p => exact hspecial
  | none =>
      have heager := register_heap hdefine .eager e [] hspecial
      dsimp only
      rcases he : is.register .eager e [] with ⟨pe, ie⟩
      rw [he] at heager
      cases pe with
      | some p => exact heager
      | none =>
          show P (applySettings e settings ie).2.heap
          rw [applySettings_heap]
          exact heager

end Natives

section NewUser

variable {i : Interpreter} {settings : List Setting}

/-- A new user environment is the youngest one. -/
theorem size_newUser : (i.newUser settings).2.heap.size = i.heap.size + 1 :=
  (setUp_furnishes i.newRoot i.nextEnv _).size.trans (Array.size_push _)

/-- A new environment has a session, whatever becomes of its set-up. -/
theorem newRoot_session? {i' : Interpreter} (h : Furnishes i.newRoot i') :
    ∃ session, i'.session? i.nextEnv = some session := by
  have hid : i'.heap.sessionOf i.nextEnv = i.sessions.size :=
    (h.sessionOf _).trans (Heap.sessionOf_push_self i.heap _)
  have hsessions : i'.sessions.size = i.sessions.size + 1 := h.sessions.trans (Array.size_push _)
  have hlt : i.sessions.size < i'.sessions.size := by omega
  exact ⟨i'.sessions[i.sessions.size], by rw [session?, hid, Array.getElem?_eq_getElem hlt]⟩

/-- A change of the session of an environment is seen from it. -/
theorem session?_modifySession (i : Interpreter) (e : EnvId) (g : Session → Session) :
    (i.modifySession e g).session? e = (i.session? e).map g := by
  show (i.sessions.modify (i.heap.sessionOf e) g)[i.heap.sessionOf e]? = _
  rw [Array.getElem?_modify, if_pos rfl]
  rfl

/-- To give a session a reader lets its environments read. -/
theorem hasReader_modifySession {e : EnvId} {session : Session} (h : i.session? e = some session) :
    (i.modifySession e fun session => { session with hasReader := true }).hasReader e = true := by
  rw [hasReader, session?_modifySession, h]
  rfl

/-- A user environment that was set up can read source texts. -/
theorem newUser_hasReader {i' : Interpreter} (h : i.newUser settings = (none, i')) :
    i'.hasReader i.nextEnv = true := by
  have hspecial := register_furnishes i.newRoot .special i.nextEnv
  unfold newUser setUp at h
  rcases hs : i.newRoot.register .special i.nextEnv [] with ⟨ps, is⟩
  rw [hs] at h hspecial
  cases ps with
  | some p => cases h
  | none =>
      dsimp only at h
      have heager := register_furnishes is .eager i.nextEnv
      rcases he : is.register .eager i.nextEnv [] with ⟨pe, ie⟩
      rw [he] at h heager
      cases pe with
      | some p => cases h
      | none =>
          dsimp only at h
          obtain ⟨session, hsession⟩ := newRoot_session? (hspecial.trans heager)
          rw [applySettings] at h
          dsimp only [applySetting] at h
          have hsettings := applySettings_furnishes i.nextEnv settings
            (ie.modifySession i.nextEnv fun session => { session with hasReader := true })
          rw [h] at hsettings
          exact hsettings.reader _ (hasReader_modifySession hsession)

end NewUser

section Forks

variable {i : Interpreter} {root : EnvId}

/-- A fork changes no environment that was there. -/
theorem fork_evolves (e : EnvId) : Heap.Evolves e i.heap (i.fork root).heap :=
  (Heap.Evolves.refl i.heap).push _

/-- A fork leaves the sessions as they are that environments have. -/
theorem fork_session? {a : EnvId} {session : Session} (ha : a < i.heap.size)
    (h : i.session? a = some session) : (i.fork root).session? a = some session := by
  have hid : (i.fork root).heap.sessionOf a = i.heap.sessionOf a := (fork_evolves a).session a ha
  rw [session?] at h
  obtain ⟨hlt, hget⟩ := Array.getElem?_eq_some_iff.mp h
  rw [session?, hid]
  show (i.sessions.push _)[i.heap.sessionOf a]? = some session
  rw [Array.getElem?_push_lt hlt, hget]

/-- The session of a fork has an empty call stack of the same greatest height,
and reads source texts if its parent does. -/
theorem fork_session?_self {session : Session} (h : i.session? root = some session) :
    (i.fork root).session? i.heap.size =
      some ⟨.empty session.stack.maxHeight, session.hasReader⟩ := by
  have hid : (i.fork root).heap.sessionOf i.heap.size = i.sessions.size :=
    Heap.sessionOf_push_self i.heap _
  have hreader : i.hasReader root = session.hasReader := by rw [hasReader, h, Option.any_some]
  rw [session?, hid]
  show (i.sessions.push _)[i.sessions.size]? = _
  rw [Array.getElem?_push_size, stackOf_of_session? h, hreader]

end Forks

end Interpreter

end LexLisp
