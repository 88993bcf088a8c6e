import SymbolicPaths.Script.Operation.Data
/-!
# Operators

Arithmetic on numbers, joining of sequences of one kind, comparison, and access to the parts of a
value.  Truth values take part in arithmetic as one and zero.
-/

namespace SymbolicPaths.Script

namespace Value

/-- Two numbers under an operation. -/
def arithmetic (f : Int → Int → Int) (a b : Value) : Act Value := do
  return .int (f (← a.toNumber) (← b.toNumber))

/-- The sum of two numbers, or two sequences of one kind joined. -/
def add : Value → Value → Act Value
  | .text a, .text b => pure (.text (a ++ b))
  | .tuple a, .tuple b => pure (.tuple (a ++ b))
  | .list a, .list b => pure (.list (a ++ b))
  | a, b => arithmetic (· + ·) a b

/-- Whether a number or a text comes before another. -/
def less : Value → Value → Act Value
  | .text a, .text b => pure (.bool (a < b))
  | a, b => do return .bool ((← a.toNumber) < (← b.toNumber))

/-- How many items a value has. -/
def size? : Value → Option Nat
  | .exploration branches _ _ => some branches.length
  | .text s => some s.length
  | v => v.items?.map List.length

/-- A text as it is, anything else written. -/
def piece : Value → Act String
  | .text s => pure s
  | v => Run.written (Written.written? v)

/-- The item of a value at a place, or under a key. -/
def item : Value → Value → Act Value
  | .dict entries, k | .frozenDict entries, k => do
    Run.requireKey (Term.unhashable? k)
    orBadOperands ((Store.mk entries).find? k)
  | .list items, k => do
    let i ← k.toNumber
    orBadOperands (if i < 0 then none else items[i.toNat]?)
  | v, k => do
    let items ← orBadOperands v.fields?
    let i ← k.toNumber
    orBadOperands (if i < 0 then none else items[i.toNat]?)

/-- The function that an arrow of a routine was made from. -/
def origin? : ArrowRef → Option Value
  | .mk _ _ (.ofRoutine f) => some f
  | _ => none

/-- The name of a computation; one that a function makes has whatever it was given for a name. -/
def compName : Computation → Value
  | .mk _ (.routine _ name) => name
  | .mk name _ => .text name

/-- The states of branches. -/
def statesOf (branches : List Value) : List Value :=
  branches.filterMap fun
    | .branch s _ => some s
    | _ => none

/-- The values of branches. -/
def valuesOf (branches : List Value) : List Value :=
  branches.filterMap fun
    | .branch _ v => some v
    | _ => none

/-- The member of a value under a name, as far as it does not depend on what can be run or called. -/
def field? : Value → String → Option Value
  | .state entries _, "locals" => some (.frozenDict entries)
  | .state _ heap, "heap" => some (.tuple heap)
  | .chunk l _, "location" => some l
  | .chunk _ v, "value" => some v
  | .location r _, "reference" => some r
  | .location _ f, "field" => some f
  | .branch s _, "state" => some s
  | .branch _ v, "value" => some v
  | .delimited l _, "left" => some l
  | .delimited _ r, "right" => some r
  | .delimited l r, "is_empty" => some (.bool (!l.truthy && !r.truthy))
  | .exploration branches _ _, "branches" => some (.tuple branches)
  | .exploration _ failures _, "failures" => some (.tuple failures)
  | .exploration _ _ truncated, "truncated" => some (.bool truncated)
  | .exploration branches _ _, "states" => some (.list (statesOf branches))
  | .exploration branches _ _, "values" => some (.list (valuesOf branches))
  | .exploration branches _ _, "all_failed" => some (.bool branches.isEmpty)
  | .dropped s _, "state" => some s
  | .dropped _ e, "error" => some e
  | .error _ _ members, name => members.lookup name
  | _, _ => none

/-- The member of a value under a name. -/
def member? (v : Value) (name : String) : Option Value :=
  match v.underlying.computation?, v.underlying.arrow?, name with
  | some c, _, "name" => some (compName c)
  | _, some k, "original_func" => origin? k
  | _, some k, "original_generator" => origin? k
  | _, _, _ => v.field? name

/-- The member of a value under a name, one of which is worked out: the message of an error. -/
def member (v : Value) (name : String) : Act Value :=
  match v, name with
  | .error .., "message" => do return .text (← Run.written (Term.shown? v))
  | _, _ => orBadOperands (v.member? name)

end Value

/-- Applies an operator. -/
def Operator.act (m : Machine) : Operator → List Value → Act Value
  | add, [a, b] => a.add b
  | subtract, [a, b] => Value.arithmetic (· - ·) a b
  | multiply, [a, b] => Value.arithmetic (· * ·) a b
  | negate, [a] => do return .int (-(← a.toNumber))
  | less, [a, b] => a.less b
  | not, [a] => pure (.bool !a.truthy)
  | equal, [a, b] => pure (.bool (Term.same a b))
  | length, [a] => do return .int (← orBadOperands a.size?)
  | written, [a] => do return .text (← Run.written (Written.written? a))
  | concat, pieces => do return .text (String.join (← Run.each pieces Value.piece))
  | get, [a, k] => a.item k
  | member, [a, .text name] => a.member name
  | call, [f, args] => do m.call f (← m.toArgs args none)
  | call, [f, args, named] => do m.call f (← m.toArgs args (some named))
  | sameHash, [a, b] => do
    Run.requireKey (Term.unhashable? a)
    Run.requireKey (Term.unhashable? b)
    return .bool (Term.same a b)
  | _, _ => Misuse.badOperands.stop

end SymbolicPaths.Script
