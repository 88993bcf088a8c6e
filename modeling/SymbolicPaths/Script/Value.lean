import SymbolicPaths.Arrow
import SymbolicPaths.Script.Datum.Model
import SymbolicPaths.Script.Expr
/-!
# Values of scripts

What the objects of a script are made of.  A computation or an arrow of a script is kept as a
*code*: the operation that built it, with the values that it was given.  What a code means is said
elsewhere (`SymbolicPaths.Script.Meaning`), in terms of the computations of the library; keeping the
code itself first-order is what allows values to be data.

A stepwise function that was called is a generator: an object that is asked for one item after the
other and is somewhere else in its body each time.  As a value it is only the number of a cell of
the context (`SymbolicPaths.Context.cells`); where it stands is the `Activity` kept there.

Codes, arrows, activities and data refer to each other, so they are defined together, and `Value`
ties the knot: the data whose objects have these payloads.
-/

namespace SymbolicPaths.Script

/-- A function of the library that scripts can pass around. -/
inductive Builtin where
  | pure | readVar | storeVar | zero | choose | addChunk | getHeap | getLocals | readHeap | writeHeap
  | maxTerm | least | greatest | total
deriving DecidableEq, Repr

namespace Builtin

/-- The functions of the library by their names. -/
def primitives : List (String × Builtin) := [
  ("pure", pure), ("read_var", readVar), ("store_var", storeVar), ("zero", zero),
  ("nondeterministic_branch", choose), ("add_chunk", addChunk), ("get_heap", getHeap),
  ("get_locals", getLocals), ("read_heap_value", readHeap), ("write_heap_value", writeHeap)]

/-- The policies by their names. -/
def policies : List (String × Builtin) := [
  ("max_term", maxTerm), ("min", least), ("max", greatest), ("sum", total)]

/-- The name of a function of the library. -/
def name (b : Builtin) : String :=
  (((primitives ++ policies).find? fun e => e.2 == b).map (·.1)).getD ""

/-- Whether a function is one that the host has for all lists. -/
def isOfHost : Builtin → Bool
  | least | greatest | total => true
  | _ => false

/-- The kind of a function of the library. -/
def kind (b : Builtin) : String := if b.isOfHost then "builtin_function_or_method" else "function"

/-- How a function of the library is written. -/
def text (b : Builtin) : String :=
  if b.isOfHost then "<built-in function " ++ b.name ++ ">" else "<function " ++ b.name ++ ">"

end Builtin

mutual

/-- A computation of a script. -/
inductive Computation where
  | mk (name : String) (code : Code)

/-- How a computation was built. -/
inductive Code where
  | pure (v : Datum Payload)
  | zero
  | readVar (name : Datum Payload)
  | storeVar (name value : Datum Payload)
  | getLocals
  | putLocals (store : Datum Payload)
  | getHeap
  | putHeap (heap : List (Datum Payload))
  | addChunk (c : Datum Payload)
  | writeHeap (l v : Datum Payload)
  | compress (policy : Datum Payload)
  | readHeap (l policy attempt : Datum Payload)
  | choose
  | probe (left right : Datum Payload)
  | bind (c : Computation) (f : Datum Payload)
  | andThen (c d : Computation)
  | map (c : Computation) (f : Datum Payload)
  | sequence (steps : List (Datum Payload))
  | traverse (items : List (Datum Payload)) (f : Datum Payload)
  | forEach (items : List (Datum Payload)) (body : Datum Payload)
  | defer (name : String) (e : Expr) (env : List (String × Datum Payload))
  | custom (name : String) (input : String) (rows : List (Expr × Expr))
      (env : List (String × Datum Payload))
  /-- The routine that a function without arguments starts. -/
  | routine (factory name : Datum Payload)
  /-- The call of an arrow. -/
  | called (k : ArrowRef) (args : Args (Datum Payload))

/-- An arrow of a script with its names. -/
inductive ArrowRef where
  | mk (name? inner? : Option String) (code : ArrowCode)

/-- How an arrow was built. -/
inductive ArrowCode where
  | ofFunction (f : Datum Payload)
  | ofRoutine (f : Datum Payload)
  | partialApply (k : ArrowRef) (given : Args (Datum Payload))
  | andThen (k : ArrowRef) (f : Datum Payload)
  | fmap (k : ArrowRef) (f : Datum Payload)

/-- What a loop still goes through. -/
inductive Iter where
  | items (rest : List (Datum Payload))
  /-- Whatever the generator with this number gives. -/
  | live (id : Nat)

/-- What is left to do in the body of a stepwise function. -/
inductive Todo where
  | statements (rest : List Stmt)
  /-- The body once for each of the items that are left. -/
  | each (name : String) (items : Iter) (body : List Stmt)
  /-- The body as long as the condition is true. -/
  | loop (condition : Expr) (body : List Stmt)

/-- Where a stepwise function stands that was called. -/
inductive Activity where
  /-- It has not run yet, and nobody has looked at its arguments. -/
  | unstarted (name : String) (params : List String) (body : List Stmt)
      (env : List (String × Datum Payload)) (args : Args (Datum Payload))
  /-- It waits for a value, which it keeps under a name if one is given. -/
  | paused (slot : Option String) (env : List (String × Datum Payload)) (todo : List Todo)
  | running

/-- What can be run or called, and what is kept of it. -/
inductive Payload where
  | comp (c : Computation)
  | arrow (k : ArrowRef)
  | function (name : String) (params : List String) (body : Expr)
      (env : List (String × Datum Payload))
  | stepwise (name : String) (params : List String) (body : List Stmt)
      (env : List (String × Datum Payload))
  | builtin (b : Builtin)
  /-- A stepwise function that was called, by the number of its cell. -/
  | generator (id : Nat)
  /-- What the cell of a generator holds. -/
  | activity (a : Activity)

end

/-- The values of scripts. -/
abbrev Value := Datum Payload

/-- Local variables, the one bound last in front. -/
abbrev Env := List (String × Value)

/-- What a script does when it is carried out. -/
abbrev Act := Run Value

namespace Value

/-- A function of the library as a value. -/
def ofBuiltin (b : Builtin) : Value :=
  .object
    { identity := .named b.name, kind := b.kind, name? := some b.name, text := b.text } (.builtin b)

/-- Whether a value can be called. -/
def isCallable : Value → Bool
  | .object _ (.generator _) | .object _ (.activity _) => false
  | .object .. | .wrapper .. | .method .. => true
  | _ => false

/-- What is kept in the cell of a generator. -/
def ofActivity (a : Activity) : Value :=
  .object { identity := .named "", kind := "", name? := none, text := "" } (.activity a)

/-- Where the generator of a cell stands. -/
def activity? : Value → Option Activity
  | .object _ (.activity a) => some a
  | _ => none

@[simp] theorem activity?_ofActivity (a : Activity) : (ofActivity a).activity? = some a := rfl

end Value

end SymbolicPaths.Script
