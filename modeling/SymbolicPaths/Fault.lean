import SymbolicPaths.State
import SymbolicPaths.Settings
/-!
# Faults

Two kinds of thing go wrong in a symbolic execution, and everything else in the library depends on
telling them apart.

* A `Failure` belongs to one path: the path is infeasible or broken, and its siblings go on.
* A `Defect` belongs to the program, or to a policy or continuation that it was given.  It is never
  confined to a branch.

`Fault` joins them, with one more way to stop: a run that used up the steps it was allowed.

Faults are causes, not texts.  What a cause is called and how it reads is said once, in
`Fault.kind` and `Fault.message?`.  A message quotes terms, so there is none if one of these cannot
be written; `Defect.ofUnwritable` is the defect that such an attempt is.
-/

namespace SymbolicPaths

/-- The family an error belongs to. -/
inductive ErrorKind where
  | symbolicExecution
  | unboundVariable
  | chunkNotFound
  | unification
  | value
  | runtime
  | type
  | member
  | system
  | key
  | lookup
  /-- There is nothing more to come; this is how bodies end, and perhaps with what. -/
  | stopIteration
  | any
deriving DecidableEq, Repr

namespace ErrorKind

/-- The name of the family. -/
def name : ErrorKind → String
  | symbolicExecution => "SymbolicExecutionError"
  | unboundVariable => "UnboundVariableError"
  | chunkNotFound => "ChunkNotFoundError"
  | unification => "UnificationError"
  | value => "ValueError"
  | runtime => "RuntimeError"
  | type => "TypeError"
  | member => "AttributeError"
  | system => "OSError"
  | key => "KeyError"
  | lookup => "LookupError"
  | stopIteration => "StopIteration"
  | any => "Exception"

/-- The families that an error of a family belongs to, itself included. -/
def ancestors : ErrorKind → List ErrorKind
  | symbolicExecution => [symbolicExecution, any]
  | unboundVariable => [unboundVariable, symbolicExecution, key, lookup, any]
  | chunkNotFound => [chunkNotFound, symbolicExecution, lookup, any]
  | unification => [unification, runtime, any]
  | value => [value, any]
  | runtime => [runtime, any]
  | type => [type, any]
  | member => [member, any]
  | system => [system, any]
  | key => [key, lookup, any]
  | lookup => [lookup, any]
  | stopIteration => [stopIteration, any]
  | any => [any]

/-- All families, each once. -/
def all : List ErrorKind :=
  [symbolicExecution, unboundVariable, chunkNotFound, unification, value, runtime, type, member,
    system, key, lookup, stopIteration, any]

/-- The family with a given name. -/
def ofName? (s : String) : Option ErrorKind := all.find? fun k => k.name == s

end ErrorKind

/-- An error that ends the branch it occurs in, and no other. -/
inductive Failure (V : Type) where
  /-- A branch was given up, with whatever was said about it. -/
  | abandoned (details : List V)
  /-- A variable was read that the store does not bind. -/
  | unbound (name : V)
  /-- A location was read that no chunk claims. -/
  | missing (location : V)

/-- An error of the program as a whole, which no branch confines. -/
inductive Defect (V : Type) where
  /-- Compressing the heap left several chunks at one location. -/
  | notUnified (location : V) (remaining : Nat) (attempts : Amount V)
  /-- Something else stood where a computation was due. -/
  | notComputation (context : String) (found : String)
  /-- Something foreign was asked for a member that it does not have. -/
  | lacking (kind member : String)
  /-- A term that cannot be a key was used as one. -/
  | unhashable (kind : String)
  /-- Two terms without an order were compared. -/
  | incomparable (operator : String) (operands : Incomparable)
  /-- A number with too many digits was to be written. -/
  | tooLong
  /-- A policy was asked to unify no terms at all. -/
  | nothingToUnify
  /-- The environment holds no usable settings. -/
  | settings (problem : Settings.Problem)
  /-- An arrow was called with its own name among the keywords. -/
  | arrowGivenTwice
  /-- A body let out the error that says there is nothing more to come. -/
  | endLeftBody
  /-- Host code raised an error of its own. -/
  | raised (kind : ErrorKind) (details : List V)

/-- Whatever keeps a run from giving an answer. -/
inductive Fault (V : Type) where
  | failure (f : Failure V)
  | defect (d : Defect V)
  /-- The run took more steps than it was allowed. -/
  | exhausted

variable {V : Type}

/-- Pieces of text between brackets; a single one is followed by a comma. -/
def tupleText : List String → String
  | [piece] => "(" ++ piece ++ ",)"
  | pieces => "(" ++ String.intercalate ", " pieces ++ ")"

/-- How the details of an error read: one detail is shown, several are written as a tuple. -/
def detailsText? [Term V] : List V → Except Unwritable String
  | [] => .ok ""
  | [v] => Term.shown? v
  | vs => return tupleText (← vs.mapM Written.written?)

namespace Failure

/-- The family of a failure. -/
def kind : Failure V → ErrorKind
  | abandoned _ => .symbolicExecution
  | unbound _ => .unboundVariable
  | missing _ => .chunkNotFound

/-- What a failure says. -/
def message? [Term V] : Failure V → Except Unwritable String
  | abandoned details => detailsText? details
  | unbound name => return "Variable not bound in store: " ++ (← Written.written? name)
  | missing l =>
    match Term.location? l with
    | some ⟨reference, field⟩ => do
      let field ← Written.written? field
      return "No heap chunk for " ++ field ++ " of reference " ++ (← Written.written? reference)
    | none => .error (.lacking (Term.kind l) "field")

end Failure

/-- How a failed unification reads, given its three parts as text. -/
def notUnifiedText (location remaining attempts : String) : String :=
  "Unification left " ++ remaining ++ " chunks at " ++ location ++ " after " ++ attempts
    ++ " compression attempt(s)"

namespace Defect

/-- The defect of writing what cannot be written. -/
def ofUnwritable : Unwritable → Defect V
  | .unordered operands => incomparable "<" operands
  | .tooLong => tooLong
  | .lacking kind member => lacking kind member

/-- The family of a defect. -/
def kind : Defect V → ErrorKind
  | notUnified .. => .unification
  | lacking .. => .member
  | notComputation .. | unhashable _ | incomparable .. | arrowGivenTwice => .type
  | tooLong | nothingToUnify | settings _ => .value
  | endLeftBody => .runtime
  | raised k _ => k

/-- What a defect says.  The details of a host error read as its family has them: a failed
unification names its location, its chunks and its attempts, and a key is written, not shown. -/
def message? [Term V] : Defect V → Except Unwritable String
  | notUnified l remaining attempts => do
    let location ← Written.written? l
    return notUnifiedText location (toString remaining) (← attempts.shown?)
  | notComputation context found => .ok (context ++ " must return a SymComp; got " ++ found)
  | lacking kind member => .ok ("'" ++ kind ++ "' object has no attribute '" ++ member ++ "'")
  | unhashable kind => .ok ("unhashable type: '" ++ kind ++ "'")
  | incomparable operator operands =>
    .ok ("'" ++ operands.operator operator ++ "' not supported between instances of '"
      ++ operands.left ++ "' and '" ++ operands.right ++ "'")
  | tooLong =>
    .ok ("Exceeds the limit (" ++ toString Text.digitLimit ++ " digits) for integer string "
      ++ "conversion; use sys.set_int_max_str_digits() to increase the limit")
  | nothingToUnify => .ok "cannot unify an empty group of terms"
  | settings problem => .ok problem.message
  | arrowGivenTwice => .ok "KleisliSymComp.__call__() got multiple values for argument 'self'"
  | endLeftBody => .ok "generator raised StopIteration"
  | raised .unification [location, remaining, attempts] => do
    let remaining ← Term.shown? remaining
    let location ← Written.written? location
    return notUnifiedText location remaining (← Term.shown? attempts)
  | raised .key [v] => Written.written? v
  | raised _ details => detailsText? details

end Defect

namespace Fault

/-- The family of a fault. -/
def kind : Fault V → ErrorKind
  | failure f => f.kind
  | defect d => d.kind
  | exhausted => .runtime

/-- What a fault says. -/
def message? [Term V] : Fault V → Except Unwritable String
  | failure f => f.message?
  | defect d => d.message?
  | exhausted => .ok "out of steps"

/-! ## Ends of bodies

Whoever carries out a body takes one error for its end, also if it comes out of a computation that the
body waits for.  A body itself, and everything else that is made like one, does not let this error
out: it leaves as a defect that says so. -/

/-- The details of a fault that says there is nothing more to come. -/
def over? : Fault V → Option (List V)
  | defect (.raised .stopIteration details) => some details
  | _ => none

/-- What a fault is once it has left a body. -/
def ofBody (e : Fault V) : Fault V :=
  match e.over? with
  | some _ => .defect .endLeftBody
  | none => e

theorem ofBody_of_over? {e : Fault V} (h : e.over? = none) : e.ofBody = e := by
  rw [ofBody, h]

/-- Nothing that has left a body says that there is nothing more to come. -/
@[simp] theorem over?_ofBody (e : Fault V) : e.ofBody.over? = none := by
  rw [ofBody]
  split
  · rfl
  · assumption

end Fault

end SymbolicPaths
