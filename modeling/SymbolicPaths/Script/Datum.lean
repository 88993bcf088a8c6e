import SymbolicPaths.Exploration
import SymbolicPaths.Primitive
/-!
# Data

The terms that scripts compute with.  A `Datum P` is a plain value, a piece of the library's own
model (a location, a state, the outcome of an exploration), an error, or an *object*: something that
can be run or called, of which `P` says what.

A piece of the model is kept by its fields, and a field is any datum: a script may put what it likes
where a state or a chunk is due (`SymbolicPaths.Script.Datum.Model` reads it back).

Objects and errors are told apart by what they are, not by what they hold: two functions with the
same text are two functions.  So they carry an identity, given out when they are made.  All that a
datum has to say about an object (its kind, its text, whether it can be a key) stands in its
`Header`, and no question about data ever looks into a payload.  Two kinds of object are nothing but
another datum in a wrapping, and so are told apart by that: an arrow around a function, and a
function that gets a receiver in front of its arguments.
-/

namespace SymbolicPaths.Script

/-- What makes an object the one it is. -/
inductive Identity where
  /-- It was made by a step of a program. -/
  | fresh (n : Nat)
  /-- It is part of the library. -/
  | named (name : String)
deriving DecidableEq, Repr

/-- What is known of an object without looking into it. -/
structure Header where
  identity : Identity
  kind : String
  /-- Its name, if it has one. -/
  name? : Option String
  /-- How it is written. -/
  text : String
  /-- Whether it can be a key. -/
  hashable : Bool := true

/-- What is known of an error without looking into it. -/
structure ErrorTag where
  identity : Nat
  kind : ErrorKind

/-- A value of a script whose objects have payloads of type `P`. -/
inductive Datum (P : Type) where
  | null
  | bool (b : Bool)
  | int (n : Int)
  | text (s : String)
  | tuple (items : List (Datum P))
  | list (items : List (Datum P))
  | dict (entries : List (Datum P × Datum P))
  | frozenDict (entries : List (Datum P × Datum P))
  | location (reference field : Datum P)
  | chunk (location value : Datum P)
  | state (entries : List (Datum P × Datum P)) (heap : List (Datum P))
  | branch (state value : Datum P)
  | delimited (left right : Datum P)
  | settings (cap debug : Datum P)
  /-- An error with what is said about it, and its members by their names. -/
  | error (tag : ErrorTag) (details : List (Datum P)) (members : List (String × Datum P))
  /-- A dropped branch with the error that ended it. -/
  | dropped (state error : Datum P)
  /-- What an exploration found; `failures` are dropped branches. -/
  | exploration (branches failures : List (Datum P)) (truncated : Bool)
  | object (header : Header) (payload : P)
  /-- An object that is nothing but another datum in a wrapping. -/
  | wrapper (header : Header) (inner : Datum P) (payload : P)
  /-- A function that gets a receiver in front of its arguments. -/
  | method (function receiver : Datum P)

namespace Datum

variable {P : Type}

instance : Inhabited (Datum P) := ⟨null⟩

/-- The kind of a datum, as messages name it. -/
def kind : Datum P → String
  | null => "NoneType"
  | bool _ => "bool"
  | int _ => "int"
  | text _ => "str"
  | tuple _ => "tuple"
  | list _ => "list"
  | dict _ => "dict"
  | frozenDict _ => "frozendict"
  | location .. => "HeapLocation"
  | chunk .. => "HeapChunk"
  | state .. => "SymbolicState"
  | branch .. => "Branch"
  | delimited .. => "DelimitedBranches"
  | settings .. => "Config"
  | error tag _ _ => tag.kind.name
  | dropped .. => "BranchFailure"
  | exploration .. => "ExplorationResult"
  | object header _ | wrapper header _ _ => header.kind
  | method .. => "method"

/-- What counts as true: everything but nothing, zero, and what is empty. -/
def truthy : Datum P → Bool
  | null => false
  | bool b => b
  | int n => n != 0
  | text s => s != ""
  | tuple items | list items => !items.isEmpty
  | dict entries | frozenDict entries => !entries.isEmpty
  | exploration branches _ _ => !branches.isEmpty
  | _ => true

/-- The number that a datum stands for; a truth value stands for one or zero. -/
def number? : Datum P → Option Int
  | bool b => some (if b then 1 else 0)
  | int n => some n
  | _ => none

/-- The fields of a tuple.  A branch is the tuple of its state and its value, and what two
computations gave is the tuple of both. -/
def fields? : Datum P → Option (List (Datum P))
  | tuple items => some items
  | branch s v => some [s, v]
  | delimited l r => some [l, r]
  | _ => none

/-- The entries of a table, frozen or not. -/
def entries? : Datum P → Option (List (Datum P × Datum P))
  | dict entries | frozenDict entries => some entries
  | _ => none

/-- What a loop goes through: items, keys, or the characters of a text. -/
def items? : Datum P → Option (List (Datum P))
  | list items => some items
  | text s => some (s.toList.map fun c => text (String.singleton c))
  | dict entries | frozenDict entries => some (entries.map (·.1))
  | d => d.fields?

/-- The name of a datum that can be called by it; with a receiver a function keeps its name. -/
def name? : Datum P → Option String
  | object header _ | wrapper header _ _ => header.name?
  | method function _ => function.name?
  | _ => none

/-- What can be run or called of a datum. -/
def payload? : Datum P → Option P
  | object _ payload | wrapper _ _ payload => some payload
  | _ => none

end Datum

end SymbolicPaths.Script
