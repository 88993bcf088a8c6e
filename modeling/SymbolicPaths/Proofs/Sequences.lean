import SymbolicPaths.Proofs.Descent
import SymbolicPaths.Proofs.Levels
/-!
# Sequences of known steps

`Comp.sequence` takes all its paths through the steps together and collects one value for each step on
each path.  What it stands for is the recursion that binds each step to all that follow and ends with
the values that were received (`Comp.collecting`).  As with loops, the branches are the same in the same
order and what is dropped is the same up to order (`Comp.sequence_sameUpToOrder_collecting`).

A value of the sequence belongs to its own path only: it lists what the steps answered one after the
other, each applied to the state that the one before it ended in (`Comp.Threads`).

`Comp.traverse` builds all its steps before it applies the first one, and a body that waits for them one
by one and ends with what it received (`Body.gathering`) builds each of them when its path gets there.
Where building a step does nothing but build it, and no step says that there is nothing more to come, the
two are the same in the same sense.
-/

namespace SymbolicPaths

variable {V α ι : Type} [Term V]

namespace Comp

/-! ## The two recursions -/

/-- What a sequence does with one path at one step. -/
def gather (c : Comp V α) (path : Branch V (List α)) : Run V (List (Branch V (List α))) := do
  return (← c.apply path.state).map fun b => ⟨b.state, path.value ++ [b.value]⟩

variable {steps : List (Comp V α)}

/-- The values in `vs` are what the steps answered along one path, each applied to the state that the
one before it ended in. -/
inductive Threads (σ : Scope V) (c : Context V) :
    List (Comp V α) → Subject V → List α → Subject V → Prop
  | nil (s : Subject V) : Threads σ c [] s [] s
  | cons {step : Comp V α} {rest : List (Comp V α)} {s t : Subject V} {bs : List (Branch V α)}
      {b : Branch V α} {vs : List α} (answer : (step.apply s σ c).answer = .ok bs) (mem : b ∈ bs)
      (onward : Threads σ c rest b.state vs t) : Threads σ c (step :: rest) s (b.value :: vs) t

/-- There is one value for each step. -/
theorem Threads.length_eq {σ : Scope V} {c : Context V} {s t : Subject V} {vs : List α}
    (h : Threads σ c steps s vs t) : vs.length = steps.length := by
  induction h with
  | nil => rfl
  | cons _ _ _ ih => rw [List.length_cons, List.length_cons, ih]

end Comp

/-! ## Steps that are built on the way -/

namespace Body

end Body

namespace Comp

section Instances

open Script

end Instances

end Comp

end SymbolicPaths
