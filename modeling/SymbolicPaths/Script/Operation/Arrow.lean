import SymbolicPaths.Script.Aggregate
import SymbolicPaths.Script.Operation.Comp
/-!
# Operations on arrows and calls

Building arrows, and calling whatever can be called: functions, arrows, computations (with a state),
and the functions of the library.
-/

namespace SymbolicPaths.Script

/-- Whether a value is a function to which a receiver can be given. -/
def Value.isReceptive : Value → Bool
  | .object _ (.function ..) | .object _ (.stepwise ..) => true
  | .object _ (.builtin b) => !b.isOfHost
  | _ => false

/-- A function with a receiver.  One that has a receiver already is a function to which another can
be given, and an arrow without one is the arrow itself. -/
def Value.received (f receiver : Value) : Act Value :=
  let function := f.underlying
  match function.arrow?, receiver with
  | some _, .null => pure function
  | some _, _ => pure (.method function receiver)
  | none, _ =>
    if function.isReceptive then
      match receiver with
      | .null => Misuse.noReceiver.stop
      | _ => pure (.method function receiver)
    else function.lacks "__get__"

/-- Builds an arrow. -/
def ArrowOp.act (m : Machine) : ArrowOp → List Value → Act Value
  | ofRoutine, [f] => Value.ofArrowCode m (.ofRoutine f)
  | ofFunction, [f] => Value.ofArrowCode m (.ofFunction f)
  | routine, [f, name] => Value.ofCode m (.routine f name)
  | partialApply, [k, args] => do
    let k ← k.arrowWith "partial"
    Value.ofArrowCode m (.partialApply k (← m.toArgs args none))
  | partialApply, [k, args, named] => do
    let k ← k.arrowWith "partial"
    Value.ofArrowCode m (.partialApply k (← m.toArgs args (some named)))
  | fmap, [k, f] => do
    let k ← k.arrowWith "fmap"
    f.requireCallable .badMapper
    Value.ofArrowCode m (.fmap k f)
  | method, [f, receiver] => f.received receiver
  | _, _ => Misuse.badOperands.stop

/-- Calls an arrow. -/
def callArrow (m : Machine) (k : ArrowRef) (args : Args Value) : Act Value := do
  let _ ← (m.arrow k).call args
  Value.ofCode m (.called k args)

namespace Builtin

/-- The parameters of a function of the library. -/
def signature (b : Builtin) : Signature :=
  match b with
  | pure => { name := b.name, required := ["value"] }
  | readVar => { name := b.name, required := ["name"] }
  | storeVar => { name := b.name, required := ["name", "value"] }
  | addChunk => { name := b.name, required := ["chunk"] }
  | readHeap =>
    { name := b.name, required := ["location"], optional := ["policy"], keywordOnly := ["_attempt"] }
  | writeHeap => { name := b.name, required := ["location", "new_value"] }
  | maxTerm => { name := b.name, required := ["values"] }
  | _ => { name := b.name, required := [] }

/-- Calls a function of the library whose arguments are matched with its parameters. -/
def callFilled (m : Machine) (b : Builtin) (args : Args Value) : Act Value := do
  let filled ← b.signature.fill args
  let argument := fun name => (filled.lookup name).getD .null
  match b with
  | pure => Value.ofCode m (.pure (argument "value"))
  | readVar => m.readVar (argument "name")
  | storeVar => m.storeVar (argument "name") (argument "value")
  | choose => Value.ofCode m .choose
  | addChunk => Value.ofCode m (.addChunk (argument "chunk"))
  | getHeap => Value.ofCode m .getHeap
  | getLocals => Value.ofCode m .getLocals
  | readHeap =>
    m.readHeap (argument "location") (argument "policy") ((filled.lookup "_attempt").getD (.int 0))
  | writeHeap => m.writeHeap (argument "location") (argument "new_value")
  | maxTerm => m.largest (argument "values")
  | _ => Value.ofCode m .zero

/-- Calls a function of the library or of the host. -/
def call (m : Machine) (b : Builtin) (args : Args Value) : Act Value :=
  match b with
  | least => m.callChoice b.name Unifier.smaller args
  | greatest => m.callChoice b.name Unifier.larger args
  | total => m.callSum b.name args
  | _ => b.callFilled m args

end Builtin

/-- The parameters of a computation that is called like a function. -/
def applicationSignature : Signature :=
  { name := "SymComp.__call__", required := ["self", "state"] }

/-- Calls a value. -/
def callValue (m : Machine) (f : Value) (args : Args Value) : Act Value :=
  match f with
  | .object _ (.function name params body env) => do
    let locals ← bindParams name params args
    m.eval (locals ++ env) body
  | .object _ (.stepwise name params body env) =>
    newGenerator name (.unstarted name params body env args)
  | .object _ (.builtin b) => b.call m args
  | .object _ (.arrow k) | .wrapper _ _ (.arrow k) => callArrow m k args
  | .object _ (.comp c) => do
    let filled ← applicationSignature.fill { args with positional := f :: args.positional }
    let s := ((filled.lookup "state").getD .null).toSubject
    return .ofBranches (← (m.comp c).apply s)
  | .method f receiver => m.call f { args with positional := receiver :: args.positional }
  | v => (Misuse.notCallable v.kind).stop

end SymbolicPaths.Script
