import SymbolicPaths.Comp
import SymbolicPaths.Layout
/-!
# Explorations

An exploration runs a computation from a state and gives every path that is feasible, together with
the branches that were dropped on the way.  A cap limits the branches that are returned; it never
limits what is computed, nor the failures.

A cap is a number.  A negative one counts from the end: it drops that many branches, which may be
all of them.  A cap that is no number is noticed when it is compared with what was found.
-/

namespace SymbolicPaths

/-- What an exploration found. -/
structure Exploration (V α : Type) where
  branches : List (Branch V α)
  failures : List (Dropped V)
  /-- Whether there were more branches than the cap allows. -/
  truncated : Bool

namespace Exploration

variable {V α : Type}

/-- The states that the paths end in. -/
def states (e : Exploration V α) : List (Subject V) := e.branches.map (·.state)

/-- The results of the paths. -/
def values (e : Exploration V α) : List α := e.branches.map (·.value)

/-- Whether no branch was returned. -/
def allFailed (e : Exploration V α) : Bool := e.branches.isEmpty

/-- What a cap keeps of a list: as many items from the front as it says, a negative cap counted from
the end. -/
def keep {β : Type} (cap : Int) (items : List β) : List β :=
  if cap < 0 then items.take ((items.length : Int) + cap).toNat else items.take cap.toNat

theorem keep_of_nonneg {β : Type} {cap : Int} (h : 0 ≤ cap) (items : List β) :
    keep cap items = items.take cap.toNat := if_neg (by omega)

/-- A cap only cuts off the end. -/
theorem isPrefix_keep {β : Type} (cap : Int) (items : List β) : keep cap items <+: items := by
  unfold keep
  split <;> exact List.take_prefix ..

end Exploration

namespace Comp

variable {V α : Type}

/-- The cap that counts: the one given, else the one of the settings. -/
def effectiveCap [Term V] (cap : Option (Amount V)) : Run V (Option (Amount V)) :=
  match cap with
  | some n => Pure.pure (some n)
  | none => do Run.having "max_branches" (← Run.settings).cap?

/-- Which of some branches a cap keeps, and whether it left any out, which is logged. -/
def cutOff [Term V] (c : Comp V α) (cap : Option (Amount V)) (found : List (Branch V α)) :
    Run V (List (Branch V α) × Bool) :=
  match cap with
  | none => Pure.pure (found, false)
  | some amount => do
    if ← Run.ordered ">" (amount.exceededBy found.length) then
      let n ← Run.ordered ">" amount.counted
      Run.log (.truncated c.name found.length n)
      return (Exploration.keep n found, true)
    else return (found, false)

/-- Explores a computation from a state under a cap. -/
def explore [Term V] [Written α] (c : Comp V α) (cap : Option (Amount V)) (s : Subject V) :
    Run V (Exploration V α) := do
  let (found, failures) ← Run.collect (c.apply s)
  let (branches, truncated) ← c.cutOff (← effectiveCap cap) found
  Run.log (.explored c.name branches.length failures.length)
  if ← Run.debugging then
    Run.log (.outcome c.name (← Run.written (Branch.layoutAll? branches)))
  return ⟨branches, failures, truncated⟩

/-- The branches that an exploration returns under no cap but that of the settings. -/
def feasible [Term V] [Written α] (c : Comp V α) (s : Subject V) : Run V (List (Branch V α)) := do
  return (← c.explore none s).branches

end Comp

end SymbolicPaths
