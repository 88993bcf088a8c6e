import SymbolicPaths.Script.Value
/-!
# Misuse

What a script can do wrong that the library itself has no word for, because in the library it cannot
be said: calling what is no function, going through what has no items, operands of the wrong shape.
A misuse is a defect of the script and is reported like any other error that host code raises.
-/

namespace SymbolicPaths.Script

/-- Words listed in running text: two are joined by `and`, more also by commas. -/
def listed : List String → String
  | [] => ""
  | [a] => a
  | [a, b] => a ++ " and " ++ b
  | a :: rest =>
    let (front, last) := (rest.dropLast, rest.getLast?.getD "")
    String.intercalate ", " (a :: front) ++ ", and " ++ last

/-- A word for one thing or for several. -/
def counted (n : Nat) (word : String) : String := if n = 1 then word else word ++ "s"

/-- A way to misuse the language. -/
inductive Misuse where
  | undefined (name : String)
  /-- A numeral that cannot be read. -/
  | badNumeral (text : String)
  /-- A numeral with too many digits. -/
  | longNumeral (digits : Nat)
  | badOperands
  | notCallable (kind : String)
  | notIterable (kind : String)
  /-- A continuation that cannot be called. -/
  | badBinder
  /-- A mapper that cannot be called. -/
  | badMapper
  /-- A policy that cannot be called. -/
  | badPolicy
  /-- Operands that an operator is not made for. -/
  | unsupported (operator left right : String)
  /-- Something other than a sequence joined to a sequence. -/
  | notJoined (sequence other : String)
  /-- A sum of texts. -/
  | textSum
  | negativeShift
  /-- A choice among nothing. -/
  | emptyChoice (function : String)
  /-- A generator that is asked for an item while it is at work on one. -/
  | alreadyRunning
  /-- A function without a receiver where a receiver is due. -/
  | noReceiver
  /-- An item of a table that has not a key and a value. -/
  | badEntry (place length : Nat)
  /-- An item of a table that has no items itself. -/
  | shapelessEntry (place : Nat)
  /-- Something other than a pair taken apart as one. -/
  | notPair (kind : String)
  | tooFewInPair (found : Nat)
  | tooManyInPair
  /-- Arguments that do not fill each parameter once. -/
  | badArguments (function : String)
  | missingArguments (function : String) (names : List String)
  | tooManyArguments (function takes : String) (plural : Bool) (given : Nat)
  | unexpectedKeyword (function keyword : String)
  | repeatedArgument (function name : String)
  | badKeywords
  /-- Nothing to choose from, not even an empty list. -/
  | nothingGiven (function : String)
  /-- Arguments more than a function of the host takes, of one sort or of any. -/
  | moreThanTaken (function sort : String) (most given : Nat)
  | fewerThanTaken (function : String) (least given : Nat)
  | invalidKeyword (function keyword : String)
  /-- A value for an empty choice among several arguments. -/
  | needlessDefault (function : String)
  /-- A variable of the environment that is no text. -/
  | notText (kind : String)
  | nullByte
  | illegalVariable
  | unnamedVariable
deriving DecidableEq, Repr

namespace Misuse

/-- The family of a misuse. -/
def kind : Misuse → ErrorKind
  | badNumeral _ | longNumeral _ | negativeShift | emptyChoice _ | alreadyRunning | badEntry ..
  | tooFewInPair _ | tooManyInPair | nullByte | illegalVariable => .value
  | unnamedVariable => .system
  | _ => .type

/-- What a misuse says. -/
def message : Misuse → String
  | undefined name => "undefined: " ++ name
  | badNumeral text => "invalid literal for int() with base 10: " ++ Text.quoted text
  | longNumeral digits =>
    "Exceeds the limit (" ++ toString Text.digitLimit ++ " digits) for integer string conversion: "
      ++ "value has " ++ toString digits
      ++ " digits; use sys.set_int_max_str_digits() to increase the limit"
  | badOperands => "bad operands"
  | notCallable kind => "'" ++ kind ++ "' object is not callable"
  | notIterable kind => "'" ++ kind ++ "' object is not iterable"
  | badBinder => "binder must be callable returning a SymComp"
  | badMapper => "mapper must be callable"
  | badPolicy => "unification policy must be callable"
  | unsupported operator left right =>
    "unsupported operand type(s) for " ++ operator ++ ": '" ++ left ++ "' and '" ++ right ++ "'"
  | notJoined sequence other =>
    "can only concatenate " ++ sequence ++ " (not \"" ++ other ++ "\") to " ++ sequence
  | textSum => "sum() can't sum strings [use ''.join(seq) instead]"
  | negativeShift => "negative shift count"
  | emptyChoice function => function ++ "() arg is an empty sequence"
  | alreadyRunning => "generator already executing"
  | noReceiver => "__get__(None, None) is invalid"
  | badEntry place length =>
    "dictionary update sequence element #" ++ toString place ++ " has length " ++ toString length
      ++ "; 2 is required"
  | shapelessEntry place =>
    "cannot convert dictionary update sequence element #" ++ toString place ++ " to a sequence"
  | notPair kind => "cannot unpack non-iterable " ++ kind ++ " object"
  | tooFewInPair found =>
    "not enough values to unpack (expected 2, got " ++ toString found ++ ")"
  | tooManyInPair => "too many values to unpack (expected 2)"
  | badArguments function => function ++ ": bad arguments"
  | missingArguments function names =>
    function ++ "() missing " ++ toString names.length ++ " required positional "
      ++ counted names.length "argument" ++ ": " ++ listed (names.map fun n => "'" ++ n ++ "'")
  | tooManyArguments function takes plural given =>
    function ++ "() takes " ++ takes ++ " positional argument" ++ (if plural then "s" else "")
      ++ " but " ++ toString given ++ (if given = 1 then " was" else " were") ++ " given"
  | unexpectedKeyword function keyword =>
    function ++ "() got an unexpected keyword argument '" ++ keyword ++ "'"
  | repeatedArgument function name =>
    function ++ "() got multiple values for argument '" ++ name ++ "'"
  | badKeywords => "keywords must be strings"
  | nothingGiven function => function ++ " expected at least 1 argument, got 0"
  | moreThanTaken function sort most given =>
    function ++ "() takes at most " ++ toString most ++ " " ++ sort ++ counted most "argument"
      ++ " (" ++ toString given ++ " given)"
  | fewerThanTaken function least given =>
    function ++ "() takes at least " ++ toString least ++ " positional " ++ counted least "argument"
      ++ " (" ++ toString given ++ " given)"
  | invalidKeyword function keyword =>
    "'" ++ keyword ++ "' is an invalid keyword argument for " ++ function ++ "()"
  | needlessDefault function =>
    "Cannot specify a default for " ++ function ++ "() with multiple positional arguments"
  | notText kind => "str expected, not " ++ kind
  | nullByte => "embedded null byte"
  | illegalVariable => "illegal environment variable name"
  | unnamedVariable => "[Errno 22] Invalid argument"

/-- The defect that a misuse is. -/
def defect (m : Misuse) : Defect Value := .raised m.kind [.text m.message]

/-- Ends the run with a misuse. -/
def stop {α : Type} (m : Misuse) : Act α := Run.reject m.defect

end Misuse

/-- The answer if there is one, and a complaint about the operands otherwise. -/
def orBadOperands {α : Type} : Option α → Act α
  | some a => pure a
  | none => Misuse.badOperands.stop

namespace Value

/-- Ends the run because a value has not the member asked for. -/
def lacks {α : Type} (v : Value) (member : String) : Act α := Run.reject (.lacking v.kind member)

/-- The state that a value is, for the sake of a member of it. -/
def stateWith (member : String) (v : Value) : Act (State Value) :=
  Run.stateWith member v.toSubject

/-- A whole number where one is required. -/
def toNumber (v : Value) : Act Int := orBadOperands v.number?

end Value

end SymbolicPaths.Script
