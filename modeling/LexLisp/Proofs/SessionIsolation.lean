import LexLisp.Proofs.Mirror
import LexLisp.Proofs.SetUp
import LexLisp.Proofs.SourceTexts

/-!
# Sessions do not disturb each other

Sessions that are forked from one environment share that environment, the
closures bound in it and all that these have captured.  Still each of them goes
on as if it were alone, in whatever order their source texts are evaluated
(`Interpreter.interleaved_sessions_are_isolated`).

What a session can get to are the environments that were there when it was
forked, which no session writes, its own environment, and those created by its
own evaluations.  So its part of the heap mirrors the heap of the session run
alone, under other names: evaluations of the other sessions come between and use
up names (`Shadows`).  A turn of the session keeps this up on both sides
(`Shadows.own`), and a turn of another session leaves it as it is
(`Shadows.foreign`).
-/

namespace LexLisp

/-- Work from `root` on: in `root` and younger environments, with closures over
such, and without absent values. -/
def Policy.above (root : EnvId) : Policy :=
  (Policy.within (root ≤ ·) root fun _ h => h).both .complete (Nat.zero_le _)

/-- Primitives are good above every root. -/
theorem Policy.native_above (root : EnvId) (n : Nat) (g : Native) :
    (above root).Good n (.native g) := by
  refine ⟨?_, rfl⟩
  intro formals body e heq
  cases heq

/-- What obeys the policy above a root stays within what is not older. -/
theorem Heap.Obeys.within {root : EnvId} {h : Heap} (hobeys : h.Obeys (.above root)) :
    h.Obeys (.within (root ≤ ·) root fun _ h => h) := by
  intro a ha
  obtain ⟨hbound, hparent⟩ := hobeys a ⟨ha, trivial⟩
  exact ⟨fun b hb => (hbound b hb).mono fun _ h => h.1, fun p hp => (hparent p hp).1⟩

namespace Interpreter

/-- From `root` nothing older and no absent value can be got to, and its session
has a limited call stack. -/
structure Rooted (root : EnvId) (i : Interpreter) : Prop where
  lt : root < i.heap.size
  obeys : i.heap.Obeys (.above root)
  session : ∃ session, i.session? root = some session ∧ 0 < session.stack.maxHeight

/-- From a new environment without a parent nothing older can be got to. -/
theorem newRoot_obeys (i : Interpreter) : i.newRoot.heap.Obeys (.above i.nextEnv) := by
  refine Heap.Obeys.push ?_ (Nat.le_refl _) ?_ ?_
  · -- Of the environments that were there before, none is as young as the root.
    rintro a ⟨⟨hge, hlt⟩, -⟩
    exact absurd hlt (Nat.not_lt_of_ge hge)
  · intro b hb
    cases hb
  · intro p hp
    cases hp

/-- A new user is rooted in their own environment. -/
theorem newUser_rooted (i : Interpreter) (settings : List Setting)
    (hlimit : 0 < ((i.newUser settings).2.stackOf i.nextEnv).maxHeight) :
    Rooted i.nextEnv (i.newUser settings).2 := by
  have hsetUp : Furnishes i.newRoot (i.newUser settings).2 := setUp_furnishes _ _ _
  refine ⟨?_, hsetUp.obeys (fun n g _ => Policy.native_above _ n g) (newRoot_obeys i), ?_⟩
  · rw [size_newUser]
    exact Nat.lt_succ_self _
  · obtain ⟨session, hsome⟩ := newRoot_session? hsetUp
    rw [stackOf_of_session? hsome] at hlimit
    exact ⟨session, hsome, hlimit⟩

/-- Source texts evaluated in the root keep it a root. -/
theorem Rooted.evalText {root : EnvId} {i : Interpreter} {source : Text} {n : Nat} {r : Reply}
    (h : Rooted root i) (hr : i.evalText root source n = some r) : Rooted root r.interpreter where
  lt := Nat.lt_of_lt_of_le h.lt (evalText_evolves hr).size_le
  obeys := evalText_obeys (Nat.le_of_lt h.lt) h.obeys ⟨⟨Nat.le_refl root, h.lt⟩, trivial⟩ hr
  session := by
    rw [evalText_session? hr h.lt]
    exact h.session

/-- Any number of texts evaluated in the root leave it rooted. -/
theorem Rooted.evalTexts {root : EnvId} {i last : Interpreter} {n : Nat} {texts : List Text}
    {results : List (EnvId × Except Panic Text)} (h : Rooted root i)
    (hrun : i.evalTexts n (texts.map (root, ·)) = some (results, last)) : Rooted root last := by
  induction texts generalizing i results with
  | nil =>
      cases hrun
      exact h
  | cons source rest ih =>
      obtain ⟨reply, more, hreply, hmore, rfl⟩ := evalTexts_cons_inv hrun
      exact ih (h.evalText hreply) hmore

section Forks

/-- Fork an environment several times. -/
def forks (i : Interpreter) (parent : EnvId) : Nat → Interpreter
  | 0 => i
  | k + 1 => (i.forks parent k).fork parent

variable {i : Interpreter} {root : EnvId} {k : Nat}

/-- Each fork is one environment. -/
theorem size_forks (i : Interpreter) (root : EnvId) (k : Nat) :
    (i.forks root k).heap.size = i.heap.size + k := by
  induction k with
  | zero => rfl
  | succ k ih =>
      have hpush : (i.forks root (k + 1)).heap.size = (i.forks root k).heap.size + 1 :=
        Array.size_push _
      omega

/-- Forks change no environment that was there. -/
theorem forks_evolves (e : EnvId) : Heap.Evolves e i.heap (i.forks root k).heap := by
  induction k with
  | zero => exact Heap.Evolves.refl i.heap
  | succ k ih => exact ih.push _

/-- Forks leave the sessions of what was there. -/
theorem forks_session? {a : EnvId} {session : Session} (ha : a < i.heap.size)
    (h : i.session? a = some session) : (i.forks root k).session? a = some session := by
  induction k with
  | zero => exact h
  | succ k ih =>
      refine fork_session? ?_ ih
      rw [size_forks]
      exact Nat.lt_of_lt_of_le ha (Nat.le_add_right _ _)

end Forks

/-- The session that was forked as `s`, among `k` sessions from `first` on, is
in `i` what it is in `alone`, where it was forked as `first` and no other session
is. -/
structure Shadows (root first : EnvId) (k : Nat) (alone i : Interpreter) (s : EnvId) : Prop where
  root_le : root ≤ first
  lt : first < alone.heap.size
  obeys : alone.heap.Obeys (.above root)
  room : first + k ≤ i.heap.size
  session : ∃ session, i.session? s = some session ∧ alone.session? first = some session ∧
    0 < session.stack.maxHeight
  mirrored : ∃ f, alone.heap.Mirrors f (root ≤ ·) i.heap ∧ f first = s ∧
    ∀ a, root ≤ a → a < alone.heap.size → a ≠ first → f a < first ∨ first + k ≤ f a

namespace Shadows

variable {root first s : EnvId} {k n : Nat} {alone i : Interpreter} {source : Text}

theorem lt_size (h : Shadows root first k alone i s) : s < i.heap.size := by
  obtain ⟨f, hm, hfirst, -⟩ := h.mirrored
  exact hfirst ▸ hm.lt h.root_le h.lt

/-- A turn of the session itself is the same in both. -/
theorem own {r : Reply} (h : Shadows root first k alone i s)
    (hr : alone.evalText first source n = some r) :
    ∃ r', i.evalText s source n = some r' ∧ r'.result = r.result ∧
      Shadows root first k r.interpreter r'.interpreter s := by
  obtain ⟨session, hsession, hsessionAlone, hlimit⟩ := h.session
  obtain ⟨f, hm, hfirst, hapart⟩ := h.mirrored
  have hread : i.read s source = alone.read first source := by
    simp only [read, hasReader, hsession, hsessionAlone]
  rcases evalText_eq_some_iff.mp hr with ⟨failure, hfail, rfl⟩ | ⟨expr, ev, hexpr, hev, rfl⟩
  · exact ⟨_, evalText_eq_some_iff.mpr (Or.inl ⟨failure, hread.trans hfail, rfl⟩), rfl, h⟩
  · -- The environments that the turn creates get the names ahead on both sides.
    obtain ⟨g, hgf, hg, hahead⟩ := hm.exists_ahead h.obeys.within
    have hgs : g first = s := (hgf first h.lt).trans hfirst
    have hdatum := read_eq_ok_isDatum hexpr
    have hroot : root ≤ alone.heap.size := Nat.le_trans h.root_le (Nat.le_of_lt h.lt)
    have hstack : i.stackOf (g first) = alone.stackOf first := by
      rw [hgs, stackOf_of_session? hsession, stackOf_of_session? hsessionAlone]
    obtain ⟨ev', hev', hout, hm'⟩ := eval_mirrors hroot h.obeys.within ⟨h.root_le, h.lt⟩
      (hdatum.good _ _) hstack hg hahead hev
    rw [hgs, hdatum.rename] at hev'
    have hr' := evalText_eq_some_iff.mpr (Or.inr ⟨expr, ev', hread.trans hexpr, hev', rfl⟩)
    refine ⟨_, hr', by rw [hout, Outcome.shown_rename], ?_⟩
    have hevolves := evalText_evolves hr'
    refine ⟨h.root_le, ?_, ?_, ?_, ?_, g, hm', hgs, ?_⟩
    · exact Nat.lt_of_lt_of_le h.lt (evalText_evolves hr).size_le
    · exact evalText_obeys hroot h.obeys ⟨⟨h.root_le, h.lt⟩, trivial⟩ hr
    · exact Nat.le_trans h.room hevolves.size_le
    · refine ⟨session, ?_, ?_, hlimit⟩
      · exact (evalText_session? hr' h.lt_size).trans hsession
      · exact (evalText_session? hr h.lt).trans hsessionAlone
    · intro a hra _ hne
      rcases Nat.lt_or_ge a alone.heap.size with hold | hnew
      · rw [hgf a hold]
        exact hapart a hra hold hne
      · obtain ⟨m, rfl⟩ := Nat.exists_eq_add_of_le hnew
        right
        rw [hahead]
        exact Nat.le_trans h.room (Nat.le_add_right _ _)

/-- A turn of another session does not touch this one. -/
theorem foreign {e : EnvId} {r : Reply} (h : Shadows root first k alone i s)
    (he : first ≤ e ∧ e < first + k) (hne : e ≠ s) (hr : i.evalText e source n = some r) :
    Shadows root first k alone r.interpreter s := by
  obtain ⟨session, hsession, hsessionAlone, hlimit⟩ := h.session
  obtain ⟨f, hm, hfirst, hapart⟩ := h.mirrored
  have hev := evalText_evolves hr
  have hfree : ∀ a, root ≤ a → a < alone.heap.size → f a ≠ e := by
    intro a hra hlt
    by_cases hafirst : a = first
    · rw [hafirst, hfirst]
      exact Ne.symm hne
    · rcases hapart a hra hlt hafirst with hbelow | habove
      · exact Nat.ne_of_lt (Nat.lt_of_lt_of_le hbelow he.1)
      · exact Nat.ne_of_gt (Nat.lt_of_lt_of_le he.2 habove)
  refine ⟨h.root_le, h.lt, h.obeys, Nat.le_trans h.room hev.size_le, ?_, ?_⟩
  · exact ⟨session, (evalText_session? hr h.lt_size).trans hsession, hsessionAlone, hlimit⟩
  · exact ⟨f, hm.evolves hev hfree, hfirst, hapart⟩

/-- A further fork does not touch the session. -/
theorem fork (h : Shadows root first k alone i s) (hsize : i.heap.size = first + k) :
    Shadows root first (k + 1) alone (i.fork root) s := by
  obtain ⟨session, hsession, hsessionAlone, hlimit⟩ := h.session
  obtain ⟨f, hm, hfirst, hapart⟩ := h.mirrored
  have hroom : first + (k + 1) ≤ (i.fork root).heap.size := by
    have hpush : (i.fork root).heap.size = i.heap.size + 1 := Array.size_push _
    exact Nat.le_of_eq (by rw [hpush, hsize, Nat.add_assoc])
  refine ⟨h.root_le, h.lt, h.obeys, hroom, ?_, f, ?_, hfirst, ?_⟩
  · exact ⟨session, fork_session? h.lt_size hsession, hsessionAlone, hlimit⟩
  · exact hm.evolves (fork_evolves i.heap.size) fun a ha hlt => Nat.ne_of_lt (hm.lt ha hlt)
  · intro a hra hlt hne
    rcases hapart a hra hlt hne with hbelow | habove
    · exact Or.inl hbelow
    · have hlt' : f a < first + k := hsize ▸ hm.lt hra hlt
      exact absurd hlt' (Nat.not_lt_of_ge habove)

/-- The session forked last is what it is when it is the only one. -/
theorem last_fork (h : Rooted root i) (k : Nat) :
    Shadows root i.heap.size (k + 1) (i.fork root) (i.forks root (k + 1)) (i.heap.size + k) := by
  obtain ⟨session, hsession, hlimit⟩ := h.session
  have hle : root ≤ i.heap.size := Nat.le_of_lt h.lt
  have hsize : (i.fork root).heap.size = i.heap.size + 1 := Array.size_push _
  -- Before the fork the heap is as it was, but for the other forks.
  have hbefore : i.heap.Mirrors id (root ≤ ·) (i.forks root k).heap :=
    (Heap.Mirrors.refl _ i.heap).evolves (forks_evolves i.heap.size)
      fun a _ hlt => Nat.ne_of_lt hlt
  obtain ⟨g, hgid, hg, hahead⟩ := hbefore.exists_ahead h.obeys.within
  have hfirst : g i.heap.size = i.heap.size + k := (hahead 0).trans (size_forks i root k)
  have hafter := hg.push (hahead 0) (some root) i.sessions.size (i.forks root k).sessions.size []
  rw [Option.map_some, hgid root h.lt] at hafter
  refine ⟨hle, ?_, ?_, ?_, ?_, g, hafter, hfirst, ?_⟩
  · rw [hsize]
    exact Nat.lt_succ_self _
  · refine h.obeys.push hle ?_ ?_
    · intro b hb
      cases hb
    · intro p hp
      cases hp
      exact ⟨⟨Nat.le_refl root, h.lt⟩, trivial⟩
  · exact Nat.le_of_eq (size_forks i root (k + 1)).symm
  · refine ⟨⟨.empty session.stack.maxHeight, session.hasReader⟩, ?_, ?_, hlimit⟩
    · rw [← size_forks i root k]
      exact fork_session?_self (forks_session? h.lt hsession)
    · exact fork_session?_self hsession
  · intro a _ hlt hne
    left
    have hold : a < i.heap.size := by
      rw [hsize] at hlt
      exact Nat.lt_of_le_of_ne (Nat.le_of_lt_succ hlt) hne
    rw [hgid a hold]
    exact hold

/-- Right after the forks every session is what it is alone. -/
theorem of_forks (h : Rooted root i) {j : Nat} (hj : j < k) :
    Shadows root i.heap.size k (i.fork root) (i.forks root k) (i.heap.size + j) := by
  induction k with
  | zero => exact absurd hj (Nat.not_lt_zero j)
  | succ k ih =>
      rcases Nat.lt_succ_iff_lt_or_eq.mp hj with hlt | rfl
      · exact (ih hlt).fork (size_forks i root k)
      · exact last_fork h j

end Shadows

/-- What belongs to one environment, in order. -/
def turnsOf {α : Type} (e : EnvId) (turns : List (EnvId × α)) : List α :=
  turns.filterMap fun (a, x) => if a = e then some x else none

theorem turnsOf_cons_self {α : Type} (e : EnvId) (x : α) (turns : List (EnvId × α)) :
    turnsOf e ((e, x) :: turns) = x :: turnsOf e turns := by
  simp [turnsOf]

theorem turnsOf_cons_of_ne {α : Type} {a e : EnvId} (hne : a ≠ e) (x : α)
    (turns : List (EnvId × α)) : turnsOf e ((a, x) :: turns) = turnsOf e turns := by
  simp [turnsOf, hne]

/-- A source text evaluated among values that are there has a text to be
shown. -/
theorem evalText_shown {root e : EnvId} {i : Interpreter} {source : Text} {n : Nat} {r : Reply}
    (hobeys : i.heap.Obeys (.above root)) (hroot : root ≤ e) (he : e < i.heap.size)
    (h : i.evalText e source n = some r) : ∃ text, r.result = .ok text := by
  rcases evalText_eq_some_iff.mp h with ⟨failure, -, rfl⟩ | ⟨expr, ev, hread, hev, rfl⟩
  · exact ⟨_, rfl⟩
  · have hexpr := (read_eq_ok_isDatum hread).good (.above root) i.heap.size
    have hvalues := (eval_holds (Nat.le_trans hroot (Nat.le_of_lt he)) hobeys
      ⟨⟨hroot, he⟩, trivial⟩ hexpr hev).2.2
    exact Outcome.exists_shown
      (Outcome.whole_or_error fun v hv => (hvalues v hv).isWhole fun _ hok => hok.2)

/-- **Interleaved turns.**  Where every session is what it is alone, the turns of
all sessions in any order give each of them the results it has alone. -/
theorem evalTexts_shadows {root first : EnvId} {k : Nat} (turns : List (EnvId × Text))
    (hturns : ∀ turn ∈ turns, ∃ j < k, turn.1 = first + j) (alone : EnvId → Interpreter)
    (i : Interpreter) (h : ∀ j < k, Shadows root first k (alone (first + j)) i (first + j)) :
    ∃ n results last, i.evalTexts n turns = some (results, last) ∧
      (∀ result ∈ results, ∃ text, result.2 = .ok text) ∧
      ∀ j < k, ∃ own lastAlone,
        (alone (first + j)).evalTexts n ((turnsOf (first + j) turns).map (first, ·)) =
          some (own, lastAlone) ∧
        turnsOf (first + j) results = turnsOf first own := by
  induction turns generalizing alone i with
  | nil => exact ⟨0, [], i, rfl, by simp, fun j _ => ⟨[], alone (first + j), rfl, rfl⟩⟩
  | cons turn rest ih =>
      obtain ⟨e, source⟩ := turn
      obtain ⟨⟨j, hj, heq⟩, hrest⟩ := List.forall_mem_cons.mp hturns
      obtain rfl : e = first + j := heq
      have hown := h j hj
      obtain ⟨session, -, hsession, hlimit⟩ := hown.session
      have hlimit' : 0 < ((alone (first + j)).stackOf first).maxHeight := by
        rw [stackOf_of_session? hsession]
        exact hlimit
      obtain ⟨n₁, r, hr⟩ := evalText_returns source hlimit'
      obtain ⟨r', hr', hresult, hshadows⟩ := hown.own hr
      obtain ⟨text, htext⟩ := evalText_shown hown.obeys hown.root_le hown.lt hr
      -- Only the session whose turn it was goes on alone.
      let alone' : EnvId → Interpreter := fun a => if a = first + j then r.interpreter else alone a
      have hself : alone' (first + j) = r.interpreter := if_pos rfl
      have hother : ∀ l, l ≠ j → alone' (first + l) = alone (first + l) :=
        fun l hl => if_neg fun heq => hl (Nat.add_left_cancel heq)
      have hnext : ∀ l < k, Shadows root first k (alone' (first + l)) r'.interpreter (first + l) := by
        intro l hl
        by_cases hlj : l = j
        · subst hlj
          rw [hself]
          exact hshadows
        · rw [hother l hlj]
          refine (h l hl).foreign ⟨Nat.le_add_right _ _, Nat.add_lt_add_left hj _⟩ ?_ hr'
          exact fun heq => hlj (Nat.add_left_cancel heq).symm
      obtain ⟨n₂, results, last, hrun, hshown, halone⟩ := ih hrest alone' r'.interpreter hnext
      have hn₁ : n₁ ≤ max n₁ n₂ := Nat.le_max_left _ _
      have hn₂ : n₂ ≤ max n₁ n₂ := Nat.le_max_right _ _
      refine ⟨max n₁ n₂, _, last,
        evalTexts_cons (evalText_eq_of_le hn₁ hr') (evalTexts_eq_of_le hn₂ hrun), ?_, ?_⟩
      · exact List.forall_mem_cons.mpr ⟨⟨text, hresult.trans htext⟩, hshown⟩
      · intro l hl
        obtain ⟨own, lastAlone, hrunAlone, hsame⟩ := halone l hl
        have hmore := evalTexts_eq_of_le hn₂ hrunAlone
        by_cases hlj : l = j
        · subst hlj
          rw [hself] at hmore
          refine ⟨(first, r.result) :: own, lastAlone, ?_, ?_⟩
          · rw [turnsOf_cons_self]
            exact evalTexts_cons (evalText_eq_of_le hn₁ hr) hmore
          · rw [turnsOf_cons_self, turnsOf_cons_self, hresult, hsame]
        · rw [hother l hlj] at hmore
          have hne : first + j ≠ first + l := fun heq => hlj (Nat.add_left_cancel heq).symm
          refine ⟨own, lastAlone, ?_, ?_⟩
          · rw [turnsOf_cons_of_ne hne]
            exact hmore
          · rw [turnsOf_cons_of_ne hne]
            exact hsame

/-- **Session isolation.**  Let a user environment with a limited call stack have
evaluated any source texts, and fork it `k` times.  However the source texts of
the forks are interleaved, all of them are evaluated, each with a text to be
shown, and every fork has the results that it has as the only one.  The bindings
and the call stack of the user environment stay as they were. -/
theorem interleaved_sessions_are_isolated {i i' : Interpreter} {settings : List Setting}
    {history : List Text} {m : Nat} {shown : List (EnvId × Except Panic Text)}
    (hlimit : 0 < ((i.newUser settings).2.stackOf i.nextEnv).maxHeight)
    (hhistory : (i.newUser settings).2.evalTexts m (history.map (i.nextEnv, ·)) =
      some (shown, i'))
    (k : Nat) (turns : List (EnvId × Text))
    (hturns : ∀ turn ∈ turns, ∃ j < k, turn.1 = i'.nextEnv + j) :
    ∃ bound results last,
      (∀ n ≥ bound, (i'.forks i.nextEnv k).evalTexts n turns = some (results, last)) ∧
      (∀ result ∈ results, ∃ text, result.2 = .ok text) ∧
      (∀ j < k, ∃ own lastAlone,
        (∀ n ≥ bound, (i'.fork i.nextEnv).evalTexts n
          ((turnsOf (i'.nextEnv + j) turns).map (i'.nextEnv, ·)) = some (own, lastAlone)) ∧
        turnsOf (i'.nextEnv + j) results = turnsOf i'.nextEnv own) ∧
      last.heap.bindings i.nextEnv = i'.heap.bindings i.nextEnv ∧
      last.stackOf i.nextEnv = i'.stackOf i.nextEnv := by
  have hroot : Rooted i.nextEnv i' := (newUser_rooted i settings hlimit).evalTexts hhistory
  obtain ⟨bound, results, last, hrun, hshown, halone⟩ := evalTexts_shadows turns hturns
    (fun _ => i'.fork i.nextEnv) (i'.forks i.nextEnv k) (fun _ hj => Shadows.of_forks hroot hj)
  refine ⟨bound, results, last, fun n hn => evalTexts_eq_of_le hn hrun, hshown, ?_, ?_⟩
  · intro j hj
    obtain ⟨own, lastAlone, hown, hsame⟩ := halone j hj
    exact ⟨own, lastAlone, fun n hn => evalTexts_eq_of_le hn hown, hsame⟩
  · obtain ⟨session, hsession, -⟩ := hroot.session
    have hforked : (i'.forks i.nextEnv k).session? i.nextEnv = some session :=
      forks_session? hroot.lt hsession
    have hlt : i.nextEnv < (i'.forks i.nextEnv k).heap.size :=
      Nat.lt_of_lt_of_le hroot.lt (forks_evolves i.nextEnv).size_le
    -- The user environment is older than all forks of it.
    have hfree : ∀ turn ∈ turns, turn.1 ≠ i.nextEnv := by
      intro turn hmem
      obtain ⟨j, -, heq⟩ := hturns turn hmem
      rw [heq]
      exact Nat.ne_of_gt (Nat.lt_of_lt_of_le hroot.lt (Nat.le_add_right _ _))
    obtain ⟨hbindings, hlast⟩ := evalTexts_frame hlt hfree hrun
    constructor
    · rw [hbindings]
      exact (forks_evolves i'.heap.size).others _ hroot.lt (Nat.ne_of_lt hroot.lt)
    · rw [stackOf_of_session? (hlast.trans hforked), stackOf_of_session? hsession]

/-- Two sessions share a closure over `x`, and one of them binds `x` itself. -/
theorem sessions_with_a_shared_closure_are_isolated :
    ∃ shown i', 0 < ((empty.newUser [.maxHeight 4]).2.stackOf empty.nextEnv).maxHeight ∧
      (empty.newUser [.maxHeight 4]).2.evalTexts 200
        ((["(def x 1)", "(def show (fn () x))"] : List Text).map (empty.nextEnv, ·)) =
          some (shown, i') ∧
      ∃ turns : List (EnvId × Text),
        turns = [(i'.nextEnv, ("(def x 2)" : Text)), (i'.nextEnv + 1, ("(show)" : Text)),
          (i'.nextEnv, ("(show)" : Text))] ∧
        ∃ bound results last,
          (∀ n ≥ bound, (i'.forks empty.nextEnv 2).evalTexts n turns = some (results, last)) ∧
          (∀ result ∈ results, ∃ text, result.2 = .ok text) ∧
          (∀ j < 2, ∃ own lastAlone,
            (∀ n ≥ bound, (i'.fork empty.nextEnv).evalTexts n
              ((turnsOf (i'.nextEnv + j) turns).map (i'.nextEnv, ·)) = some (own, lastAlone)) ∧
            turnsOf (i'.nextEnv + j) results = turnsOf i'.nextEnv own) ∧
          last.heap.bindings empty.nextEnv = i'.heap.bindings empty.nextEnv ∧
          last.stackOf empty.nextEnv = i'.stackOf empty.nextEnv := by
  have hlimit : 0 < ((empty.newUser [.maxHeight 4]).2.stackOf empty.nextEnv).maxHeight := by
    decide +kernel
  obtain ⟨⟨shown, i'⟩, hhistory⟩ := Option.isSome_iff_exists.mp
    (show ((empty.newUser [.maxHeight 4]).2.evalTexts 200
      ((["(def x 1)", "(def show (fn () x))"] : List Text).map (empty.nextEnv, ·))).isSome by
        decide +kernel)
  refine ⟨shown, i', hlimit, hhistory, _, rfl, ?_⟩
  apply interleaved_sessions_are_isolated hlimit hhistory 2
  intro turn hturn
  simp only [List.mem_cons, List.not_mem_nil, or_false] at hturn
  rcases hturn with rfl | rfl | rfl
  · exact ⟨0, by decide, rfl⟩
  · exact ⟨1, by decide, rfl⟩
  · exact ⟨0, by decide, rfl⟩

end Interpreter

end LexLisp
