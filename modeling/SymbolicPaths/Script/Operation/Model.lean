import SymbolicPaths.Script.Operation.Operator
/-!
# Operations on states, heaps and branches

The pure side of the model: changed states, heaps as multisets, fusing, and the layouts for reports.
-/

namespace SymbolicPaths.Script

namespace Machine

variable (m : Machine)

/-- A heap fused under a policy.  Each member is looked at before the next one is asked for. -/
def fuse (heap policy : Value) : Act Value := do
  let unify ← m.unifier policy
  let claims ← m.gather (fun v => Heap.fusible [v.toMember]) heap
  let fused ← Run.each (Heap.groups claims.flatten) (Heap.fuseGroup unify)
  return .tuple (fused.map .ofChunk)

/-- A state laid out behind an indent, which is whatever it is shown as. -/
def layoutState (indent v : Value) : Act Value := do
  let indent ← Run.written (Term.shown? indent)
  return .text (← Run.written (v.toSubject.layout? indent))

/-- Branches laid out one below the other.  Each is looked at before the next one is asked for, and
any pair is taken for a state and a value. -/
def layoutBranches (branches : Value) : Act Value := do
  let blocks ← m.fold (fun blocks v => do
    let (state, value) ← m.toPair v
    let branch : Branch Value Value := ⟨state.toSubject, value⟩
    return (← Run.written (branch.layout? blocks.length)) :: blocks) [] branches
  return .text (Branch.layoutBlocks blocks.reverse)

/-- Every item of one side with every item of the other. -/
def pairs (v : Value) : Act Value :=
  match v with
  | .delimited left right => do
    let left ← m.drain left
    let sides : Delimited (List Value) (List Value) := ⟨left, ← m.drain right⟩
    return .list (sides.pairs.map fun (l, r) => .tuple [l, r])
  | _ => v.lacks "pairs"

end Machine

namespace Value

/-- The state that a value is, to count what is in its heap. -/
def countable (v : Value) : Act (State Value) := do
  let s ← v.stateWith "heap_multiset"
  Run.requireKey (Heap.uncountable? s.heap)
  return s

/-- Whether the heaps of two states are equal as multisets. -/
def heapEqual (a b : Value) : Act Value := do
  let s ← a.countable
  let t ← b.countable
  match s.heapEqual? t with
  | .ok equal => return .bool equal
  | .error kind => Run.reject (.unhashable kind)

/-- Whether two states are equivalent: their stores come first, and the heaps of states whose stores
differ are not looked at. -/
def equivalent (a b : Value) : Act Value := do
  let s ← a.stateWith "locals"
  let t ← b.stateWith "locals"
  if s.store.same t.store then heapEqual a b else return .bool false

end Value

/-- Carries out an operation on the model. -/
def ModelOp.act (m : Machine) : ModelOp → List Value → Act Value
  | bindLocal, [v, name, value] => do
    let s ← v.stateWith "bind_local"
    Run.requireKey (Term.unhashable? name)
    return .ofState (s.bindLocal name value)
  | withLocals, [v, store] => do
    let s ← v.stateWith "with_locals"
    return .ofState (s.withStore (← m.toStore store))
  | withHeap, [v, heap] => do
    let s ← v.stateWith "with_heap"
    return .ofState (s.withHeap ((← m.drain heap).map Datum.toMember))
  | chunksAt, [v, l] => do
    return .tuple ((← Comp.chunksAt l v.toSubject).map .ofChunk)
  | withValue, [.chunk l _, v] => pure (.chunk l v)
  | withValue, [c, _] => c.lacks "with_value"
  | multiset, [v] => do
    let s ← v.countable
    return .list ((Heap.multiset s.heap).map fun (c, n) => .tuple [.ofMember c, .int n])
  | fuse, [heap] => m.fuse heap .null
  | fuse, [heap, policy] => m.fuse heap policy
  | maxTerm, [values] => m.largest values
  | heapEqual, [a, b] => a.heapEqual b
  | equivalent, [a, b] => a.equivalent b
  | layoutState, [v] => Machine.layoutState (.text "") v
  | layoutState, [v, indent] => Machine.layoutState indent v
  | layoutBranches, [branches] => m.layoutBranches branches
  | pairs, [v] => m.pairs v
  | _, _ => Misuse.badOperands.stop

end SymbolicPaths.Script
