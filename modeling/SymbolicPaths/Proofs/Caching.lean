import Mathlib.Data.List.Induction
import SymbolicPaths.Proofs.Observation
/-!
# Settings over time

The settings in force are those that a program has installed.  If it has installed none, they are read from
the environment when they are first asked for, and then kept, whatever the environment becomes.  An
environment that holds no usable settings is a defect of whoever asks, and nothing is kept of it, so the next
one to ask reads it again.

This is said here about whole histories.  An `Access` is anything that a program may do to the settings or
to what they are read from, and `Held` reads off a history what is in force after it, by looking for the
last installation and for the first successful reading since.  It never mentions a cache.
`Access.settings_over_time` says that the cache holds just that, and what asking and installing answer.
-/

namespace SymbolicPaths

variable {V : Type}

/-- Something that a program does to the settings, or to what they are read from. -/
inductive Access (V : Type) where
  /-- The environment becomes another one. -/
  | change (f : Environment → Environment)
  /-- Somebody asks for the settings. -/
  | read
  /-- Settings are installed, or with nothing reset, so that they are read again. -/
  | install (i : Option (Installed V))

namespace Access

/-- Carries out an access.  A reading answers with the settings, an installation with those before. -/
def run : Access V → Run V (Option (Installed V))
  | change f => do
    Run.updateContext fun c => { c with environment := f c.environment }
    return none
  | read => do return some (← Run.settings)
  | install i => Run.install i

/-- The context after a history.  A program goes on after a reading that failed. -/
def after (σ : Scope V) (history : List (Access V)) (c : Context V) : Context V :=
  history.foldl (fun c a => (a.run σ c).context) c

/-- The environment after a history. -/
def surroundings (history : List (Access V)) (env : Environment) : Environment :=
  history.foldl (fun env a => match a with | change f => f env | _ => env) env

/-! ## One access -/

section Steps

variable (σ : Scope V) (c : Context V)

/-- To ask for the settings is to have them read, if that is possible. -/
theorem context_settings : (Run.settings σ c).context = c.primed := by
  cases hc : c.settings with
  | some i => rw [Run.settings_apply_of_installed hc, Context.primed_of_installed hc]
  | none =>
    cases he : Settings.ofEnvironment c.environment with
    | ok t =>
      have primed := Context.primed_of_readable hc he
      rw [Run.settings_apply_of_primed (by rw [primed])]
    | error p =>
      rw [Context.primed_of_unreadable hc he, Run.settings, Run.context_bind, hc]
      show ((Run.context >>= _ : Run V (Installed V)) σ c).context = c
      rw [Run.context_bind, Run.load, he]
      rfl

/-- An environment without usable settings is a defect of whoever asks, and nothing is kept of it. -/
theorem settings_apply_of_unreadable {p : Settings.Problem} (hc : c.settings = none)
    (he : Settings.ofEnvironment c.environment = .error p) :
    Run.settings σ c = ⟨.error (.defect (.settings p)), c, []⟩ := by
  rw [Run.settings, Run.context_bind, hc]
  show (Run.context >>= _ : Run V (Installed V)) σ c = _
  rw [Run.context_bind, Run.load, he]
  rfl

theorem context_read : ((read : Access V).run σ c).context = c.primed := by
  rw [← context_settings σ c]
  cases h : (Run.settings σ c).answer with
  | ok i => exact Run.context_bind_of_ok h _
  | error e => exact Run.context_bind_of_error h _

end Steps

/-! ## Histories -/

variable {σ : Scope V} {c : Context V} {history first later : List (Access V)} {env : Environment}

theorem after_append (front back : List (Access V)) (c : Context V) :
    after σ (front ++ back) c = after σ back (after σ front c) := List.foldl_append

theorem after_concat (history : List (Access V)) (a : Access V) (c : Context V) :
    after σ (history ++ [a]) c = (a.run σ (after σ history c)).context := after_append ..

theorem surroundings_append (front back : List (Access V)) (env : Environment) :
    surroundings (front ++ back) env = surroundings back (surroundings front env) := List.foldl_append

/-- Nobody but the environment's changes changes it. -/
theorem environment_after (history : List (Access V)) (c : Context V) :
    (after σ history c).environment = surroundings history c.environment := by
  induction history using List.reverseRecOn with
  | nil => rfl
  | append_singleton history a ih =>
    rw [after_concat, surroundings_append, ← ih]
    cases a with
    | change f => rfl
    | install i => rfl
    | read =>
      rw [context_read, Context.primed]
      split <;> rfl

/-- Nothing is installed in a history. -/
def Uninstalled (history : List (Access V)) : Prop := ∀ i, install i ∉ history

/-- No reading in a history succeeds. -/
def Fruitless (env : Environment) (history : List (Access V)) : Prop :=
  ∀ before later, history = before ++ read :: later →
    ∃ p, Settings.ofEnvironment (surroundings before env) = .error p

/-- Nothing has happened yet, or there has just been a reset. -/
def Fresh (history : List (Access V)) : Prop :=
  history = [] ∨ ∃ before, history = before ++ [install none]

/-- What a history from an environment leaves in force, if anything: the settings that were installed last,
or since the last reset those of the environment as it stood at the first reading that succeeded. -/
inductive Held (env : Environment) : List (Access V) → Option (Installed V) → Prop where
  | installed (before : List (Access V)) (i : Installed V) {later : List (Access V)}
      (hl : Uninstalled later) : Held env (before ++ install (some i) :: later) (some i)
  | loaded {start first later : List (Access V)} {t : Settings} (hs : Fresh start)
      (hf : Uninstalled first) (fruitless : Fruitless (surroundings start env) first)
      (ht : Settings.ofEnvironment (surroundings (start ++ first) env) = .ok t)
      (hl : Uninstalled later) : Held env (start ++ first ++ read :: later) (some (.loaded t))
  | nothing {start first : List (Access V)} (hs : Fresh start) (hf : Uninstalled first)
      (fruitless : Fruitless (surroundings start env) first) : Held env (start ++ first) none

theorem Uninstalled.nil : Uninstalled ([] : List (Access V)) := fun _ => List.not_mem_nil

theorem Uninstalled.concat (h : Uninstalled history) {a : Access V} (ha : ∀ i, install i ≠ a) :
    Uninstalled (history ++ [a]) := fun i hi =>
  (List.mem_append.1 hi).elim (h i) fun hi => ha i (List.mem_singleton.1 hi)

/-- One more access is fruitless unless it is a reading that succeeds. -/
theorem Fruitless.concat (h : Fruitless env history) {a : Access V}
    (ha : a = read → ∃ p, Settings.ofEnvironment (surroundings history env) = .error p) :
    Fruitless env (history ++ [a]) := by
  intro before later split
  rcases List.eq_nil_or_concat later with rfl | ⟨later, b, rfl⟩
  · obtain ⟨rfl, same⟩ := List.append_inj' split rfl
    exact ha (List.singleton_inj.1 same)
  · have split' : history ++ [a] = (before ++ read :: later) ++ [b] := by simpa using split
    exact h before later (List.append_inj' split' rfl).1

theorem Fruitless.nil : Fruitless env ([] : List (Access V)) := fun before later split => by
  cases before <;> cases split

/-! ## What is kept -/

/-- Settings in force stay until something is installed. -/
theorem settings_after_of_uninstalled {i : Installed V} (hc : c.settings = some i)
    (hl : Uninstalled later) : (after σ later c).settings = some i := by
  induction later using List.reverseRecOn with
  | nil => exact hc
  | append_singleton later a ih =>
    have kept := ih fun j hj => hl j (List.mem_append_left _ hj)
    rw [after_concat]
    cases a with
    | change f => exact kept
    | read => rw [context_read, Context.primed_of_installed kept, kept]
    | install j => exact absurd (List.mem_append_right later (List.mem_singleton_self _)) (hl j)

/-- Readings that fail leave nothing behind. -/
theorem settings_after_of_fruitless (hc : c.settings = none) (hf : Uninstalled first)
    (fruitless : Fruitless c.environment first) : (after σ first c).settings = none := by
  induction first using List.reverseRecOn with
  | nil => exact hc
  | append_singleton first a ih =>
    have empty := ih (fun j hj => hf j (List.mem_append_left _ hj)) fun before later split =>
      fruitless before (later ++ [a]) (by rw [split, List.append_assoc, List.cons_append])
    rw [after_concat]
    cases a with
    | change f => exact empty
    | read =>
      obtain ⟨p, hp⟩ := fruitless first [] rfl
      rw [context_read, Context.primed_of_unreadable empty (by rw [environment_after]; exact hp), empty]
    | install j => exact absurd (List.mem_append_right first (List.mem_singleton_self _)) (hf j)

/-- Where nothing has been asked for since the start or a reset, nothing is kept. -/
theorem Fresh.settings_after (hs : Fresh history) (hc : c.settings = none) :
    (after σ history c).settings = none := by
  obtain rfl | ⟨before, rfl⟩ := hs
  · exact hc
  · rw [after_concat]
    rfl

/-- **The cache holds what the history says.** -/
theorem Held.settings_after {held : Option (Installed V)} (hc : c.settings = none)
    (h : Held c.environment history held) : (after σ history c).settings = held := by
  cases h with
  | installed before i hl =>
    rw [after_append]
    exact settings_after_of_uninstalled (c := ((install (some i)).run σ (after σ before c)).context) rfl hl
  | @loaded start first later t hs hf fruitless ht hl =>
    have empty : (after σ (start ++ first) c).settings = none := by
      rw [after_append]
      exact settings_after_of_fruitless (hs.settings_after hc) hf (by rwa [environment_after])
    rw [after_append]
    show (after σ later (read.run σ (after σ (start ++ first) c)).context).settings = _
    refine settings_after_of_uninstalled ?_ hl
    rw [context_read, Context.primed_of_readable empty (by rwa [environment_after])]
  | nothing hs hf fruitless =>
    rw [after_append]
    exact settings_after_of_fruitless (hs.settings_after hc) hf (by rwa [environment_after])

/-- To ask for settings that can be read keeps them. -/
theorem Held.read_of_readable {t : Settings} (h : Held env history none)
    (ht : Settings.ofEnvironment (surroundings history env) = .ok t) :
    Held env (history ++ [read]) (some (.loaded t)) := by
  cases h with
  | nothing hs hf fruitless => exact .loaded hs hf fruitless ht .nil

/-- To ask for settings that cannot be read keeps nothing. -/
theorem Held.read_of_unreadable {p : Settings.Problem} (h : Held env history none)
    (hp : Settings.ofEnvironment (surroundings history env) = .error p) :
    Held env (history ++ [read]) none := by
  cases h with
  | @nothing start first hs hf fruitless =>
    rw [List.append_assoc]
    refine .nothing hs (hf.concat fun i hi => by cases hi) (fruitless.concat fun _ => ⟨p, ?_⟩)
    rwa [surroundings_append] at hp

/-- Whatever is in force, a change of the environment leaves it so. -/
theorem Held.change {held : Option (Installed V)} (h : Held env history held)
    (f : Environment → Environment) : Held env (history ++ [.change f]) held := by
  have passes : ∀ i : Option (Installed V), install i ≠ .change f := fun i hi => by cases hi
  cases h with
  | installed before i hl =>
    rw [List.append_assoc, List.cons_append]
    exact .installed before i (hl.concat passes)
  | loaded hs hf fruitless ht hl =>
    rw [List.append_assoc, List.cons_append]
    exact .loaded hs hf fruitless ht (hl.concat passes)
  | nothing hs hf fruitless =>
    rw [List.append_assoc]
    exact .nothing hs (hf.concat passes) (fruitless.concat fun ha => by cases ha)

/-- Whatever is in force, to ask for it leaves it so. -/
theorem Held.read_of_some {i : Installed V} (h : Held env history (some i)) :
    Held env (history ++ [read]) (some i) := by
  have passes : ∀ j : Option (Installed V), install j ≠ read := fun j hj => by cases hj
  cases h with
  | installed before i hl =>
    rw [List.append_assoc, List.cons_append]
    exact .installed before i (hl.concat passes)
  | loaded hs hf fruitless ht hl =>
    rw [List.append_assoc, List.cons_append]
    exact .loaded hs hf fruitless ht (hl.concat passes)

/-- Every history says what is in force. -/
theorem exists_held (env : Environment) (history : List (Access V)) : ∃ held, Held env history held := by
  induction history using List.reverseRecOn with
  | nil => exact ⟨none, @Held.nothing _ env [] [] (.inl rfl) .nil .nil⟩
  | append_singleton history a ih =>
    obtain ⟨held, h⟩ := ih
    cases a with
    | change f => exact ⟨held, h.change f⟩
    | install i =>
      cases i with
      | some i => exact ⟨some i, .installed history i .nil⟩
      | none =>
        refine ⟨none, ?_⟩
        rw [← List.append_nil (history ++ _)]
        exact .nothing (.inr ⟨history, rfl⟩) .nil .nil
    | read =>
      cases held with
      | some i => exact ⟨some i, h.read_of_some⟩
      | none =>
        cases he : Settings.ofEnvironment (surroundings history env) with
        | ok t => exact ⟨_, h.read_of_readable he⟩
        | error p => exact ⟨_, h.read_of_unreadable he⟩

theorem held_iff (σ : Scope V) (hc : c.settings = none) {held : Option (Installed V)} :
    Held c.environment history held ↔ (after σ history c).settings = held := by
  refine ⟨Held.settings_after hc, ?_⟩
  rintro rfl
  obtain ⟨held, h⟩ := exists_held c.environment history
  rwa [h.settings_after (σ := σ) hc]

/-- Whoever asks while nothing is kept is given the settings of the environment. -/
theorem Held.settings_of_readable (σ : Scope V) (hc : c.settings = none) {t : Settings}
    (h : Held c.environment history none)
    (ht : Settings.ofEnvironment (surroundings history c.environment) = .ok t) :
    (Run.settings σ (after σ history c)).answer = .ok (.loaded t) := by
  have primed := Context.primed_of_readable ((held_iff σ hc).1 h) (by rwa [environment_after])
  rw [Run.settings_apply_of_primed (by rw [primed])]

/-- **The settings over time.**  Let a program start where no settings have been read, and change the
environment, ask for the settings, and install and reset them in any order.

* What is kept is what the history says: the settings installed last, or those that the first successful
  reading since the last reset found, or nothing.
* Whoever asks while something is kept is given that, and nothing changes.
* Whoever asks while nothing is kept is given the settings of the environment as it stands, and they are kept
  from then on.  If it holds none, that is a defect of the family of bad values, and still nothing is kept, so
  that the next one to ask is given settings if the environment has been repaired by then.
* To install answers with what was kept before.  So to install what an installation answered with undoes it. -/
theorem settings_over_time (σ : Scope V) (c : Context V) (hc : c.settings = none)
    (history : List (Access V)) :
    (∀ held, Held c.environment history held ↔ (after σ history c).settings = held) ∧
    (∀ i, Held c.environment history (some i) →
      Run.settings σ (after σ history c) = ⟨.ok i, after σ history c, []⟩) ∧
    (Held c.environment history none →
      (∀ t, Settings.ofEnvironment (surroundings history c.environment) = .ok t →
        (Run.settings σ (after σ history c)).answer = .ok (.loaded t) ∧
        Held c.environment (history ++ [read]) (some (.loaded t))) ∧
      ∀ p, Settings.ofEnvironment (surroundings history c.environment) = .error p →
        Run.settings σ (after σ history c) = ⟨.error (.defect (.settings p)), after σ history c, []⟩ ∧
        (Fault.defect (.settings p) : Fault V).kind = .value ∧
        Held c.environment (history ++ [read]) none ∧
        ∀ repair t, Settings.ofEnvironment (repair (surroundings history c.environment)) = .ok t →
          (Run.settings σ (after σ (history ++ [read, change repair]) c)).answer = .ok (.loaded t)) ∧
    ∀ held, Held c.environment history held → ∀ i,
      Run.install i σ (after σ history c) = ⟨.ok held, { after σ history c with settings := i }, []⟩ ∧
      ((Run.install i >>= Run.install) σ (after σ history c)).context = after σ history c := by
  have kept : ∀ {held}, Held c.environment history held → (after σ history c).settings = held :=
    (held_iff σ hc).1
  refine ⟨fun held => held_iff σ hc, fun i h => Run.settings_apply_of_installed (kept h) σ,
    fun h => ⟨fun t ht => ⟨h.settings_of_readable σ hc ht, h.read_of_readable ht⟩, fun p hp => ?_⟩,
    fun held h i => ⟨?_, rfl⟩⟩
  · have still := h.read_of_unreadable hp
    refine ⟨settings_apply_of_unreadable σ _ (kept h) ?_, rfl, still, fun repair t ht => ?_⟩
    · rw [environment_after]
      exact hp
    · rw [List.append_cons]
      refine (still.change repair).settings_of_readable σ hc ?_
      rw [surroundings_append, surroundings_append]
      exact ht
  · rw [← kept h]
    rfl

/-- A cap that is no numeral is asked for in vain.  Once it is a numeral the settings are read and kept,
whatever the cap becomes, until they are reset. -/
theorem settings_over_time_repaired :
    let cap (raw : String) : Access Nat := change fun env => env.set Settings.capVariable raw
    let history := [cap "abc", read, cap "7", read, cap "9"]
    let σ : Scope Nat := .of .guarded
    (Run.settings σ (after σ history {})).answer = .ok (.loaded { maxBranches := some 7 }) ∧
      (Run.settings σ (after σ (history ++ [install none]) {})).answer
        = .ok (.loaded { maxBranches := some 9 }) := by
  intro cap history σ
  obtain ⟨-, given, -⟩ := settings_over_time σ {} rfl history
  obtain ⟨iff, -, read, -⟩ := settings_over_time σ {} rfl (history ++ [install none])
  refine ⟨?_, ((read ((iff none).2 rfl)).1 _ rfl).1⟩
  have loaded : Held [] history (some (.loaded { maxBranches := some 7 })) :=
    (held_iff (c := {}) σ rfl).2 rfl
  rw [given _ loaded]

end Access

end SymbolicPaths
