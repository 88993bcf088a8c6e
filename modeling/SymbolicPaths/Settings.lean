import SymbolicPaths.Amount
import SymbolicPaths.Text.Quoted
/-!
# Settings

Two settings steer a run from outside: a cap on the branches that an exploration returns, and a
switch that has every step logged.  Both can be read from environment variables.  A cap that is
absent or blank means no cap; one that is not a numeral, or is negative, is refused.  The switch is
on for three words in any case and off for everything else, so it cannot be malformed.

A program may install whatever it likes in place of settings.  What is `Installed` is therefore either
settings or a term, and a term says what its cap and its switch are if it can.
-/

namespace SymbolicPaths

/-- What steers a run from outside. -/
structure Settings where
  /-- The most branches an exploration returns, if that is limited. -/
  maxBranches : Option Int := none
  /-- Whether every step is logged. -/
  debug : Bool := false
deriving DecidableEq, Repr

/-- Environment variables, each name at most once. -/
abbrev Environment := List (String × String)

namespace Environment

/-- The environment with a variable set. -/
def set (env : Environment) (name value : String) : Environment :=
  (name, value) :: env.filter fun e => e.1 != name

/-- The environment without a variable. -/
def unset (env : Environment) (name : String) : Environment :=
  env.filter fun e => e.1 != name

@[simp] theorem lookup_set (env : Environment) (name value : String) :
    (env.set name value).lookup name = some value := by
  simp [set]

@[simp] theorem lookup_unset (env : Environment) (name : String) :
    (env.unset name).lookup name = none := by
  simp only [unset, List.lookup_eq_none_iff, List.mem_filter, and_imp]
  intro e _ differs
  simpa using Ne.symm (by simpa using differs)

end Environment

namespace Settings

/-- The variable that holds the branch cap. -/
def capVariable : String := "SYMEXEC_MAX_BRANCHES"

/-- The variable that holds the debug switch. -/
def debugVariable : String := "SYMEXEC_DEBUG"

/-- Why an environment holds no settings. -/
inductive Problem where
  /-- The cap is not a numeral. -/
  | malformedCap (raw : String)
  /-- The cap is a negative number. -/
  | negativeCap (cap : Int)
deriving DecidableEq, Repr

/-- What a problem says; the variable is named, a malformed text is quoted and a number is not. -/
def Problem.message : Problem → String
  | malformedCap raw => capVariable ++ " must be an integer, got " ++ Text.quoted raw
  | negativeCap cap => capVariable ++ " must be non-negative, got " ++ toString cap

/-- The cap that a text stands for; a blank text stands for none. -/
def parseCap (raw : String) : Except Problem (Option Int) :=
  if Text.allBlank raw then .ok none
  else
    match Text.parse? raw with
    | none => .error (.malformedCap raw)
    | some n => if n < 0 then .error (.negativeCap n) else .ok (some n)

/-- The words that turn the debug switch on. -/
def isOn (raw : String) : Bool :=
  let word := raw.map Char.toLower
  word == "1" || word == "true" || word == "yes"

/-- The settings that an environment holds. -/
def ofEnvironment (env : Environment) : Except Problem Settings := do
  let maxBranches ← match env.lookup capVariable with
    | none => pure none
    | some raw => parseCap raw
  return { maxBranches, debug := ((env.lookup debugVariable).map isOn).getD false }

end Settings

/-- What is installed as settings: settings, or what a program gave for them. -/
inductive Installed (V : Type) where
  | loaded (s : Settings)
  | given (v : V)

namespace Installed

variable {V : Type} [Term V]

/-- Whether every step is logged, or else the kind of something that does not say so. -/
def debug? : Installed V → Except String Bool
  | loaded s => .ok s.debug
  | given v =>
    match Term.debug? v with
    | some on => .ok on
    | none => .error (Term.kind v)

/-- The cap on branches, if there is one, or else the kind of something that does not say so. -/
def cap? : Installed V → Except String (Option (Amount V))
  | loaded s => .ok (s.maxBranches.map .number)
  | given v =>
    match Term.cap? v with
    | some cap => .ok (cap.map .given)
    | none => .error (Term.kind v)

@[simp] theorem debug?_loaded (s : Settings) : (loaded s : Installed V).debug? = .ok s.debug := rfl

@[simp] theorem cap?_loaded (s : Settings) :
    (loaded s : Installed V).cap? = .ok (s.maxBranches.map .number) := rfl

end Installed

end SymbolicPaths
