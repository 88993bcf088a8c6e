import SymbolicPaths.Script.Meaning
/-!
# Operations that build computations

Each operation checks what has to be right when a computation is built and leaves the rest to the
time when it runs.  A computation is required where one is taken apart, a continuation has to be
something that can be called, and the items of a loop are fixed; what a continuation gives, and
whether a function of a loop can be called at all, only shows when it is.
-/

namespace SymbolicPaths.Script

namespace Value

/-- A value as a computation where one is required. -/
def requireComputation (context : String) (v : Value) : Act Computation :=
  match v.computation? with
  | some c => pure c
  | none => Run.reject (.notComputation context v.kind)

/-- The function that a value has its members from: those of a function with a receiver are those of
the function. -/
def underlying : Value → Value
  | .method f _ => underlying f
  | v => v

/-- A value as a computation that has the member asked for. -/
def computationWith (member : String) (v : Value) : Act Computation :=
  match v.computation? with
  | some c => pure c
  | none => v.underlying.lacks member

/-- A value as an arrow that has the member asked for. -/
def arrowWith (member : String) (v : Value) : Act ArrowRef :=
  match v.underlying.arrow? with
  | some k => pure k
  | none => v.underlying.lacks member

/-- Goes on only if a value can be called. -/
def requireCallable (complaint : Misuse) (f : Value) : Act Unit :=
  if f.isCallable then pure () else complaint.stop

end Value

namespace Machine

variable (m : Machine)

/-- The read of a variable. -/
def readVar (name : Value) : Act Value := do
  name.requireText Term.shown?
  Value.ofCode m (.readVar name)

/-- The binding of a variable. -/
def storeVar (name v : Value) : Act Value := do
  name.requireText Term.shown?
  Value.ofCode m (.storeVar name v)

/-- The overwriting of a location. -/
def writeHeap (l v : Value) : Act Value := do
  l.requireText Written.written?
  Value.ofCode m (.writeHeap l v)

/-- The read of a location. -/
def readHeap (l policy attempt : Value) : Act Value := do
  l.requireText Written.written?
  Value.ofCode m (.readHeap l policy attempt)

/-- A computation continued by a function. -/
def flatMap (c : Computation) (f : Value) : Act Value := do
  f.requireCallable .badBinder
  Value.ofCode m (.bind c f)

/-- A computation continued by another. -/
def andThen (c : Computation) (d : Value) : Act Value := do
  Value.ofCode m (.andThen c (← d.requireComputation "then"))

/-- An arrow continued by a function. -/
def chain (k : ArrowRef) (f : Value) : Act Value := do
  f.requireCallable .badBinder
  Value.ofArrowCode m (.andThen k f)

/-- A computation or an arrow continued by a function. -/
def continueWith (v f : Value) : Act Value :=
  match v.computation? with
  | some c => m.flatMap c f
  | none => do m.chain (← v.arrowWith "and_then_k") f

/-- The same as an operator, which a receiver does not pass on to its function.  Between numbers the
operator is a shift. -/
def shift (v f : Value) : Act Value :=
  match v.computation?, v.arrow?, v.number?, f.number? with
  | some c, _, _, _ => m.flatMap c f
  | _, some k, _, _ => m.chain k f
  | _, _, some n, some k =>
    if k < 0 then Misuse.negativeShift.stop else pure (.int (n >>> k.toNat))
  | _, _, _, _ => (Misuse.unsupported ">>" v.kind f.kind).stop

end Machine

/-- Builds a computation. -/
def CompOp.act (m : Machine) : CompOp → List Value → Act Value
  | pure, [v] => Value.ofCode m (.pure v)
  | lift, [v] =>
    match v.computation? with
    | some _ => Pure.pure v
    | none => Value.ofCode m (.pure v)
  | zero, [] => Value.ofCode m .zero
  | readVar, [name] => m.readVar name
  | storeVar, [name, v] => m.storeVar name v
  | getLocals, [] => Value.ofCode m .getLocals
  | putLocals, [store] => Value.ofCode m (.putLocals store)
  | getHeap, [] => Value.ofCode m .getHeap
  | putHeap, [heap] => do Value.ofCode m (.putHeap (← m.drain heap))
  | addChunk, [c] => Value.ofCode m (.addChunk c)
  | writeHeap, [l, v] => m.writeHeap l v
  | compress, [] => Value.ofCode m (.compress .null)
  | compress, [policy] => Value.ofCode m (.compress policy)
  | readHeap, [l] => m.readHeap l .null (.int 0)
  | readHeap, [l, policy] => m.readHeap l policy (.int 0)
  | readHeap, [l, policy, attempt] => m.readHeap l policy attempt
  | choose, [] => Value.ofCode m .choose
  | probe, [l, r] => Value.ofCode m (.probe l r)
  | bind, [c, f] => do m.flatMap (← c.requireComputation "bind") f
  | combine, [c, d] => do m.andThen (← c.requireComputation "combine") d
  | forEach, [items, body] => do Value.ofCode m (.forEach (← m.drain items) body)
  | flatMap, [c, f] => do m.flatMap (← c.computationWith "flat_map") f
  | continueWith, [v, f] => m.continueWith v f
  | shift, [v, f] => m.shift v f
  | map, [c, f] => do
    let c ← c.computationWith "map"
    f.requireCallable .badMapper
    Value.ofCode m (.map c f)
  | andThen, [c, d] => do m.andThen (← c.computationWith "then") d
  | sequence, [steps] => do Value.ofCode m (.sequence (← m.drain steps))
  | traverse, [items, f] => do Value.ofCode m (.traverse (← m.drain items) f)
  | _, _ => Misuse.badOperands.stop

end SymbolicPaths.Script
