import SymbolicPaths.Script.Operation.Arrow
/-!
# Operations that build data

Values, pieces of the model, policies and functions of the library, and errors.  A key of a table
has to be usable as one; a key that occurs again keeps its place and gets the later value.
-/

namespace SymbolicPaths.Script

namespace Value

/-- The entry of a table that a pair of a key and a value is. -/
def toTableEntry (m : Machine) (v : Value) : Act (Value × Value) := do
  match ← m.drain v with
  | [key, value] =>
    Run.requireKey (Term.unhashable? key)
    return (key, value)
  | _ => Misuse.badOperands.stop

/-- The entries of a table from pairs of keys and values. -/
def toTable (m : Machine) (pairs : List Value) : Act (List (Value × Value)) := do
  return (Store.ofEntries (← Run.each pairs (toTableEntry m))).entries

/-- The parameters of the families whose errors are about something. -/
def faultSignature (kind : ErrorKind) (parameters : List String) : Signature :=
  { name := kind.name ++ ".__init__", required := "self" :: parameters }

/-- The arguments of an error that is about something, by their parameters. -/
def faultArguments (kind : ErrorKind) (parameters : List String) (details : List Value) :
    Act (List Value) := do
  let filled ← (faultSignature kind parameters).fill { positional := .null :: details }
  return parameters.map fun p => (filled.lookup p).getD .null

/-- A fault that says what it is about from the start. -/
def worded (f : Fault Value) : Act (Fault Value) := do
  let _ ← Run.written f.message?
  return f

/-- An error of a family with what is said about it. -/
def toFault (kind : ErrorKind) (details : List Value) : Act (Fault Value) :=
  match kind with
  | .symbolicExecution => pure (.failure (.abandoned details))
  | .unboundVariable => do
    let arguments ← faultArguments kind ["name"] details
    worded (.failure (.unbound (arguments.headD .null)))
  | .chunkNotFound => do
    let arguments ← faultArguments kind ["location"] details
    worded (.failure (.missing (arguments.headD .null)))
  | .unification => do
    worded (.defect (.raised kind
      (← faultArguments kind ["location", "remaining", "attempts"] details)))
  | _ => pure (.defect (.raised kind details))

/-- The families that scripts have names for. -/
def toKind (name : String) : Act ErrorKind := do
  match ← orBadOperands (ErrorKind.ofName? name) with
  | .member | .system | .stopIteration => Misuse.badOperands.stop
  | kind => return kind

/-- The families that a value belongs to. -/
def families : Value → List ErrorKind
  | .error tag _ _ => tag.kind.ancestors
  | _ => []

end Value

/-- Builds a datum, or ends with an error. -/
def DataOp.act (m : Machine) : DataOp → List Value → Act Value
  | tuple, items => pure (.tuple items)
  | list, items => pure (.list items)
  | dict, pairs => do return .dict (← Value.toTable m pairs)
  | frozenDict, pairs => do return .frozenDict (← Value.toTable m pairs)
  | range, [n] => do
    return .list ((List.range (← n.toNumber).toNat).map fun i => .int (Int.ofNat i))
  | location, [r, f] => pure (.location r f)
  | chunk, [l, v] => pure (.chunk l v)
  | state, [store, heap] => do
    let store ← m.toStore store
    return .state store.entries (← m.drain heap)
  | emptyState, [] => pure (.state [] [])
  | branch, [s, v] => pure (.branch s v)
  | delimited, [l, r] => pure (.delimited l r)
  | policy, [.text name] => do
    return Value.ofBuiltin (← orBadOperands (Builtin.policies.lookup name))
  | primitive, [.text name] => do
    return Value.ofBuiltin (← orBadOperands (Builtin.primitives.lookup name))
  | error, .text kind :: details => do
    Value.newError (← Value.toFault (← Value.toKind kind) details)
  | raise, .text kind :: details => do
    Run.stop (← Value.toFault (← Value.toKind kind) details)
  | isA, [v, .text kind] => do return .bool (v.families.contains (← Value.toKind kind))
  | _, _ => Misuse.badOperands.stop

end SymbolicPaths.Script
