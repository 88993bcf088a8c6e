import SymbolicPaths.Script.Iteration
/-!
# Signatures

How the arguments of a call are matched with parameters.  A function of a script is strict: the
arguments have to fill each parameter exactly once, and all that is said otherwise is that they do
not.  A function of the library has optional parameters, some of them by keyword only, and says what
is wrong: a keyword that it does not know or that is already taken comes first, then arguments too
many, then arguments that are missing.
-/

namespace SymbolicPaths.Script

/-- Puts positional arguments into parameters; `none` if there are too many. -/
def fillPositions : List String → List Value → Option Env
  | _, [] => some []
  | [], _ :: _ => none
  | p :: ps, v :: vs => (fillPositions ps vs).map ((p, v) :: ·)

/-- The local variables of a call in which each parameter is filled exactly once. -/
def fillParams? (params : List String) (args : Args Value) : Option Env := do
  let byPosition ← fillPositions params args.positional
  let filled := byPosition ++ args.named
  if filled.length = params.length ∧ params.all (fun p => (filled.lookup p).isSome) then filled
  else none

/-- The local variables of a call of a function of a script. -/
def bindParams (name : String) (params : List String) (args : Args Value) : Act Env :=
  match fillParams? params args with
  | some env => pure env
  | none => (Misuse.badArguments name).stop

/-- The parameters of a function of the library. -/
structure Signature where
  name : String
  required : List String
  optional : List String := []
  keywordOnly : List String := []

namespace Signature

/-- How many positional arguments a function takes, in words. -/
def takes (s : Signature) : String :=
  let most := s.required.length + s.optional.length
  if s.optional.isEmpty then toString most
  else "from " ++ toString s.required.length ++ " to " ++ toString most

/-- Adds the keywords of a call to the parameters that are filled already. -/
def addKeywords (s : Signature) (filled : Env) : List (String × Value) → Act Env
  | [] => pure filled
  | (k, v) :: rest =>
    if !(s.required ++ s.optional ++ s.keywordOnly).contains k then
      (Misuse.unexpectedKeyword s.name k).stop
    else if (filled.lookup k).isSome then (Misuse.repeatedArgument s.name k).stop
    else s.addKeywords (filled ++ [(k, v)]) rest

/-- The arguments of a call by parameter. -/
def fill (s : Signature) (args : Args Value) : Act Env := do
  let positions := s.required ++ s.optional
  let filled ← s.addKeywords (positions.zip args.positional) args.named
  if positions.length < args.positional.length then
    (Misuse.tooManyArguments s.name s.takes (positions.length != 1) args.positional.length).stop
  else
    let missing := s.required.filter fun p => (filled.lookup p).isNone
    if missing.isEmpty then return filled else (Misuse.missingArguments s.name missing).stop

end Signature

end SymbolicPaths.Script
