import SymbolicPaths.Script.Misuse
/-!
# Machines

Evaluating an expression may call a function, which may evaluate any expression, and running a
computation may do either; scripts can go on for ever.  All of it is bounded by a number of levels.
A `Machine` is what one level may ask of the level below it: to evaluate an expression, to call a
value, to run a computation, to invoke an arrow, or to have a generator take its next step.  Every
part of the language is defined in terms of a machine and never recurs by itself; the levels are
tied together in one place (`SymbolicPaths.Script.Evaluation`).

This module has what parts of the language share: reading a value as a computation, a continuation
or a policy, and making objects.
-/

namespace SymbolicPaths.Script

/-- How far something got that runs in steps: to its end, or to the next thing that it gives. -/
inductive Progress (σ : Type) where
  | ended (result : Value)
  | gave (item : Value) (rest : σ)

/-- What a level of evaluation may ask of the level below. -/
structure Machine where
  /-- How many steps a loop or a routine may take. -/
  fuel : Nat
  eval : Env → Expr → Act Value
  call : Value → Args Value → Act Value
  enter : Code → Subject Value → Act (List (Branch Value Value))
  invoke : ArrowCode → Args Value → Act (Comp Value Value)
  /-- Sends a value to the generator with a number and has it go on. -/
  step : Nat → Value → Act (Progress Unit)

namespace Computation

/-- The name of a computation. -/
def name : Computation → String
  | mk name _ => name

/-- How a computation was built. -/
def code : Computation → Code
  | mk _ code => code

end Computation

namespace Value

/-- A value as a computation of the script. -/
def computation? : Value → Option Computation
  | .object _ (.comp c) => some c
  | _ => none

/-- A value as an arrow of the script. -/
def arrow? (v : Value) : Option ArrowRef :=
  match v.payload? with
  | some (.arrow k) => some k
  | _ => none

end Value

namespace Machine

variable (m : Machine)

/-- Calls a value with positional arguments. -/
def callWith (f : Value) (args : List Value) : Act Value := m.call f { positional := args }

/-- A computation of the script as a computation of the library. -/
def comp (c : Computation) : Comp Value Value := ⟨c.name, m.enter c.code⟩

/-- An arrow of the script as an arrow of the library. -/
def arrow : ArrowRef → Arrow Value Value
  | .mk name? inner? code => ⟨name?, inner?, m.invoke code⟩

/-- A value as a computation, or else its kind. -/
def comp? (v : Value) : Except String (Comp Value Value) :=
  match v.computation? with
  | some c => .ok (m.comp c)
  | none => .error v.kind

/-- A value where a computation is due. -/
def expectComp (context : String) (v : Value) : Act (Comp Value Value) :=
  Comp.expect context (m.comp? v)

/-- A value as a computation; what is none is the computation that gives it. -/
def liftComp (v : Value) : Comp Value Value :=
  match m.comp? v with
  | .ok c => Comp.lift (.inl c)
  | .error _ => Comp.lift (.inr v)

/-- A function as what to go on with: it is called with a value and has to give a computation. -/
def continuation (context : String) (f : Value) (v : Value) : Act (Comp Value Value) := do
  m.expectComp context (← m.callWith f [v])

/-- A function as a policy, called with the list of values. -/
def policy (p : Value) : Unifier Value := fun values => m.callWith p [.list values]

/-- The unifier that is meant where a value is passed as a policy. -/
def unifier (p : Value) : Act (Unifier Value) := Unifier.meant m.policy (some ⟨m.policy p, p.truthy⟩)

end Machine

namespace Value

/-! ## Making objects -/

/-- A new object. -/
def fresh (kind : String) (name? : Option String) (text : String) (payload : Payload) :
    Act Value := do
  return .object { identity := .fresh (← Run.freshId), kind, name?, text } payload

/-- A new function. -/
def newFunction (name? : Option String) (payload : Payload) : Act Value :=
  fresh "function" name? ("<function " ++ name?.getD "?" ++ ">") payload

/-- What a fault says, where that is certain to be writable. -/
def faultText (f : Fault Value) : Value :=
  match f.message? with
  | .ok message => .text message
  | .error _ => .text ""

/-- The details of a fault, and its members by their names.  What a fault is about is also what it
says, except for errors that host code raises with details of its own. -/
def faultParts (f : Fault Value) : List Value × List (String × Value) :=
  match f with
  | .failure (.abandoned details) => (details, [])
  | .failure (.unbound name) => ([faultText f], [("name", name)])
  | .failure (.missing l) => ([faultText f], [("location", l)])
  | .defect (.notUnified l remaining attempts) =>
    ([faultText f],
      [("location", l), ("remaining", .int remaining), ("attempts", .ofAmount attempts)])
  | .defect (.raised .unification [l, remaining, attempts]) =>
    ([faultText f], [("location", l), ("remaining", remaining), ("attempts", attempts)])
  | .defect (.raised _ details) => (details, [])
  | _ => ([faultText f], [])

/-- A new error. -/
def newError (f : Fault Value) : Act Value := do
  let (details, members) := faultParts f
  return .error ⟨← Run.freshId, f.kind⟩ details members

/-- A dropped branch as a value. -/
def ofDropped (d : Dropped Value) : Act Value := do
  return .dropped (.ofSubject d.state) (← newError (.failure d.error))

/-- What an exploration found as a value. -/
def ofExploration (e : Exploration Value Value) : Act Value := do
  return .exploration (e.branches.map .ofBranch) (← Run.each e.failures ofDropped) e.truncated

/-- Goes on only if a value can be written down in one of its forms. -/
def requireText (form : Value → Except Unwritable String) (v : Value) : Act Unit := do
  let _ ← Run.written (form v)

end Value

end SymbolicPaths.Script
