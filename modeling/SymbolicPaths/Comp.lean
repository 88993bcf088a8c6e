import SymbolicPaths.Run
/-!
# Computations

A `Comp V α` is a lazy symbolic computation: applied to a state it gives every branch that continues
from there.  What it does is its `body`; its `name` is how log records and other names refer to it.

`Comp.apply` is the guarded application that every combinator uses for the computations that it is
made of.  In the guarded mode a failure inside ends this application only: there are no branches,
and the failure is reported once, with the state to which the innermost failing computation was
applied.  In the raw mode the same application lets the failure through, so a single argument
decides how the whole tree of computations behaves.

The combinators take continuations of type `α → Run V (Comp V β)`: code of the program which may
itself fail, be defective, or leave notes before it says how to go on.
-/

namespace SymbolicPaths

/-- A computation with results of type `α`. -/
structure Comp (V α : Type) where
  name : String
  body : Subject V → Run V (List (Branch V α))

namespace Comp

variable {V α β ι : Type}

/-! ## Application -/

/-- Applies a computation to a state.  A guarded application that gives branches looks at the
settings, to know whether to say so. -/
def apply [Term V] (c : Comp V α) (s : Subject V) : Run V (List (Branch V α)) := do
  match ← Run.guarding c.name s (c.body s) with
  | none => return []
  | some branches =>
    if (← Run.mode) = .guarded then Run.announce c.name branches.length
    return branches

/-- Applies a computation so that the first failure anywhere inside it ends the run. -/
def runRaw (c : Comp V α) (s : Subject V) : Run V (List (Branch V α)) :=
  Run.inMode .raw (c.body s)

/-- What stands where a computation is due, as a computation.  Anything else is a defect that names
the place and what was found there. -/
def expect (context : String) (found : Except String (Comp V α)) : Run V (Comp V α) :=
  match found with
  | .ok c => pure c
  | .error kind => Run.reject (.notComputation context kind)

/-! ## Values and delays -/

/-- One branch: the state as it is, with a given result. -/
def pure (a : α) : Comp V α := ⟨"pure", fun s => Pure.pure [⟨s, a⟩]⟩

/-- What stands where a computation or a value may stand, as a computation. -/
def lift : Comp V α ⊕ α → Comp V α
  | .inl c => c
  | .inr a => pure a

/-- The computation that does nothing. -/
def zero : Comp V Unit := ⟨"zero", fun s => Pure.pure [⟨s, ()⟩]⟩

/-- The computation that ends with a fault. -/
def stop (e : Fault V) : Comp V α := ⟨"stop", fun _ => Run.stop e⟩

/-- The computation that `thunk` builds, built anew each time it is applied. -/
def defer [Term V] (name : String) (thunk : Run V (Comp V α)) : Comp V α :=
  ⟨name, fun s => do (← thunk).apply s⟩

/-- `defer` under its usual name. -/
def delay [Term V] (thunk : Run V (Comp V α)) : Comp V α := defer "delay" thunk

/-! ## Sequencing -/

/-- Continues every branch of `c` with what `f` builds from its result.  Each continuation is built
and applied under a guard of its own, so a failure in one drops that branch only. -/
def bind [Term V] (c : Comp V α) (f : α → Run V (Comp V β)) : Comp V β where
  name := "bind(" ++ c.name ++ ")"
  body s := do
    Run.flatMap (← c.apply s) fun b => (defer (c.name ++ " >>=") (f b.value)).apply b.state

/-- Continues every branch of `c` with `d`, whatever its result. -/
def andThen [Term V] (c : Comp V α) (d : Comp V β) : Comp V β := c.bind fun _ => Pure.pure d

/-- Applies `f` to every result.  All the applications stand under one guard. -/
def map [Term V] (f : α → Run V β) (c : Comp V α) : Comp V β where
  name := "map(" ++ c.name ++ ")"
  body s := do
    Run.each (← c.apply s) fun b => do return ⟨b.state, ← f b.value⟩

/-- The same computation with its results read as another type; the name stays. -/
def relabel (f : α → β) (c : Comp V α) : Comp V β where
  name := c.name
  body s := do return (← c.body s).map fun b => ⟨b.state, f b.value⟩

/-- Goes through `steps` with all the paths at once: each step continues every path that the steps
before it left.  The length of the list does not deepen the nesting of computations. -/
def sequence [Term V] (steps : List (Comp V α)) : Comp V (List α) where
  name := "sequence"
  body s := steps.foldlM (fun frontier step =>
    Run.flatMap frontier fun path => do
      return (← step.apply path.state).map fun b => ⟨b.state, path.value ++ [b.value]⟩)
    [(⟨s, []⟩ : Branch V (List α))]

/-- The sequence of the computations that `f` builds from the items, all built before the first is
applied.  They are built like a body: what `f` raises leaves it as it leaves a body. -/
def traverse [Term V] (items : List ι) (f : ι → Run V (Comp V α)) : Comp V (List α) :=
  defer "traverse" do return sequence (← Run.each items fun i => Run.asBody (f i))

/-- Unrolls `body` over items that are known beforehand, with all the paths at once; what is built
for an item is built on each path when the path gets there. -/
def forEach [Term V] (items : List ι) (body : ι → Run V (Comp V α)) : Comp V Unit where
  name := "for_each"
  body s := do
    let frontier ← items.foldlM (fun frontier i =>
      Run.flatMap frontier fun current => do
        return ((← (delay (body i)).apply current).map (·.state)))
      [s]
    return frontier.map fun current => ⟨current, ()⟩

end Comp

end SymbolicPaths
