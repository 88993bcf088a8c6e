import SymbolicPaths.Comp
/-!
# Routines

A routine is a program written in steps: it runs until it wants a computation carried out, and is
resumed with the result of one of its branches.  Such a body can be resumed only once from where it
stands, but the computation it asked for may have several branches.

`Routine.comp` makes it a computation all the same.  The first branch goes on with the body that is
running.  Every other branch is put on a worklist with the values that its path has sent so far, and
is later *replayed*: the body is prepared and started again and sent those values, without carrying
out any computation a second time.  The worklist is last in, first out, and siblings are put on it in
order before anything that was waiting, so paths end in depth-first order from left to right.

A body that takes its steps as a function of what it was sent behaves on a replay as it did before.
The definition does not rely on that: a replayed body is really started again, with whatever it
notes or changes.  How long a path is, and how many there are, is up to the body, so the engine is
given the number of steps that it may take for each.

What a body does belongs to the path that it is on, and a failure there ends this path only.
Preparing a body belongs to no path yet, so a failure there is one of the whole routine.  Where a path
ends while its body waits, the body is released; that happens under no guard of the path, so what goes
wrong then is the fault that shows.

A body ends by an error that carries its result, and the engine cannot tell whether it was the body
that raised it.  So a computation that raises this error ends the path it is carried out on, in the
state to which it was applied and with what the error carries (`Routine.whenOver`).  A body that
raises the error by itself has it turned into another (`Run.asBody`).
-/

namespace SymbolicPaths

/-- Where a routine stands: it ended with a result, or it waits for the result of a computation.
What it wants is looked at only when it is to be carried out, not in a replay. -/
inductive Signal (V σ α : Type) where
  | finished (a : α)
  | awaiting (wanted : Run V (Comp V V)) (paused : σ)

/-- A body that can be started any number of times; `σ` is what is kept of it while it waits. -/
structure Routine (V σ α : Type) where
  /-- Makes the body ready to be started. -/
  prepare : Run V σ
  start : σ → Run V (Signal V σ α)
  resume : σ → V → Run V (Signal V σ α)
  /-- The result of a path that ends because a computation says there is nothing more to come, and
  perhaps with what. -/
  whenOver : Option V → α
  /-- Lets go of a body that waits. -/
  release : σ → Run V Unit := fun _ => pure ()

/-- A path that is still to be explored: the values sent so far, and the state to go on in. -/
structure Path (V : Type) where
  trail : List V
  state : Subject V

namespace Routine

variable {V σ α : Type}

/-- Sends a value; a body that has ended stays where it is. -/
def send (r : Routine V σ α) (v : V) : Signal V σ α → Run V (Signal V σ α)
  | .finished a => pure (.finished a)
  | .awaiting _ paused => Run.asBody (r.resume paused v)

/-- Sends values from left to right. -/
def feed (r : Routine V σ α) : List V → Signal V σ α → Run V (Signal V σ α)
  | [], signal => pure signal
  | v :: rest, signal => do feed r rest (← r.send v signal)

/-- Starts a prepared body and brings it to where `trail` leads. -/
def replay (r : Routine V σ α) (ready : σ) (trail : List V) : Run V (Signal V σ α) := do
  feed r trail (← Run.asBody (r.start ready))

/-- Whether there is a branch to go on with. -/
def goesOn : Except (List V) (List (Branch V V)) → Bool
  | .ok (_ :: _) => true
  | _ => false

/-- Carries out what a body waits for, and lets go of the body if it is not gone on with. -/
def carryOut [Term V] (r : Routine V σ α) (wanted : Run V (Comp V V)) (paused : σ) (s : Subject V) :
    Run V (Except (List V) (List (Branch V V))) :=
  Run.afterUnless goesOn (Run.asBody (r.release paused)) (Run.unlessOver do (← wanted).apply s)

/-- Takes a path from a signal on along first branches.  Gives the branch that the path ends in, if
it ends well, and the siblings left waiting, those to be explored first in front. -/
def follow [Term V] (r : Routine V σ α) (name : String) :
    (fuel : Nat) → Signal V σ α → Path V → Run V (Option (Branch V α) × List (Path V))
  | _, .finished a, path => pure (some ⟨path.state, a⟩, [])
  | 0, .awaiting .., _ => Run.exhausted
  | fuel + 1, .awaiting wanted paused, path => do
    match ← r.carryOut wanted paused path.state with
    | .error details => return (some ⟨path.state, r.whenOver details.head?⟩, [])
    | .ok [] => return (none, [])
    | .ok (first :: siblings) =>
      let waiting := siblings.map fun b => ⟨path.trail ++ [b.value], b.state⟩
      match ← Run.guarding name first.state (Run.asBody (r.resume paused first.value)) with
      | none => return (none, waiting)
      | some signal =>
        let (ended, later) ← follow r name fuel signal ⟨path.trail ++ [first.value], first.state⟩
        return (ended, later ++ waiting)

/-- Prepares the body anew, replays a path and takes it on to its end. -/
def pursue [Term V] (r : Routine V σ α) (name : String) (fuel : Nat) (path : Path V) :
    Run V (Option (Branch V α) × List (Path V)) := do
  let ready ← r.prepare
  match ← Run.guarding name path.state (r.replay ready path.trail) with
  | none => return (none, [])
  | some signal => follow r name fuel signal path

/-- Works off the waiting paths, the first one first; `depth` bounds each path and `fuel` their
number. -/
def exhaust [Term V] (r : Routine V σ α) (name : String) (depth : Nat) :
    (fuel : Nat) → List (Path V) → Run V (List (Branch V α))
  | _, [] => pure []
  | 0, _ :: _ => Run.exhausted
  | fuel + 1, path :: waiting => do
    let (ended, siblings) ← pursue r name depth path
    let others ← exhaust r name depth fuel (siblings ++ waiting)
    return ended.toList ++ others

/-- The computation that explores every path of a routine. -/
def comp [Term V] (r : Routine V σ α) (name : String) (fuel : Nat) : Comp V α :=
  ⟨name, fun s => exhaust r name fuel fuel [⟨[], s⟩]⟩

end Routine

end SymbolicPaths
