import SymbolicPaths.Script.Iteration
/-!
# Choosing and adding up

The functions that make one value of many: the best of some values, which are the items of a single
argument or else the arguments themselves, and their sum.  A choice can go by a key instead of the
values, and can have a value of its own for an empty list.  What is wrong with the arguments is told
before any item is looked at.
-/

namespace SymbolicPaths.Script

/-- The first keyword that a function does not know. -/
def unknownKeyword? (known : List String) (args : Args Value) : Option String :=
  (args.named.find? fun e => !known.contains e.1).map (·.1)

/-- The sum of two values: numbers are added, lists and tuples are joined. -/
def Value.plus (a b : Value) : Act Value :=
  match a.number?, b.number? with
  | some n, some k => pure (.int (n + k))
  | _, _ =>
    match a, b with
    | .list items, .list more => pure (.list (items ++ more))
    | .list _, _ => (Misuse.notJoined "list" b.kind).stop
    | _, _ =>
      match a.fields?, b.fields? with
      | some items, some more => pure (.tuple (items ++ more))
      | some _, none => (Misuse.notJoined "tuple" b.kind).stop
      | none, _ => (Misuse.unsupported "+" a.kind b.kind).stop

namespace Machine

variable (m : Machine)

/-- A candidate and what it goes by. -/
def ranked (key : Option Value) (candidate : Value) : Act (Value × Value) :=
  match key with
  | some f => do return (candidate, ← m.callWith f [candidate])
  | none => pure (candidate, candidate)

/-- The best of two candidates: the one before unless the other is better by what they go by. -/
def prefer (isBetter : Value → Value → Act Bool) (key : Option Value) (so : Option (Value × Value))
    (candidate : Value) : Act (Option (Value × Value)) := do
  let (candidate, rank) ← m.ranked key candidate
  match so with
  | none => return some (candidate, rank)
  | some best => return some (if ← isBetter rank best.2 then (candidate, rank) else best)

/-- The best of the items of a value, if there are any. -/
def best? (isBetter : Value → Value → Act Bool) (key : Option Value) (items : Value) :
    Act (Option Value) := do
  return (← m.fold (m.prefer isBetter key) none items).map (·.1)

/-- Calls a function that chooses. -/
def callChoice (function : String) (isBetter : Value → Value → Act Bool) (args : Args Value) :
    Act Value := do
  let (items, several) ← match args.positional with
    | [] => (Misuse.nothingGiven function).stop
    | [items] => pure (items, false)
    | arguments => pure (.tuple arguments, true)
  if 2 < args.named.length then
    (Misuse.moreThanTaken function "keyword " 2 args.named.length).stop
  else
    match unknownKeyword? ["key", "default"] args with
    | some keyword => (Misuse.invalidKeyword function keyword).stop
    | none =>
      let default := args.named.lookup "default"
      if several && default.isSome then (Misuse.needlessDefault function).stop
      else
        let key := (args.named.lookup "key").bind fun f => match f with
          | .null => none
          | f => some f
        match ← m.best? isBetter key items, default with
        | some v, _ => return v
        | none, some v => return v
        | none, none => (Misuse.emptyChoice function).stop

/-- The items of a value added to a start. -/
def sum (items start : Value) : Act Value := do
  let it ← items.iter
  match start with
  | .text _ => Misuse.textSum.stop
  | _ => m.foldItems Value.plus m.fuel start it

/-- Calls the function that adds up. -/
def callSum (function : String) (args : Args Value) : Act Value := do
  let given := args.positional.length + args.named.length
  if 2 < given then
    let sort := if args.positional.isEmpty then "keyword " else ""
    (Misuse.moreThanTaken function sort 2 given).stop
  else
    match args.positional with
    | [] => (Misuse.fewerThanTaken function 1 0).stop
    | items :: rest =>
      match unknownKeyword? ["start"] args with
      | some keyword => (Misuse.invalidKeyword function keyword).stop
      | none => m.sum items ((rest.head? <|> args.named.lookup "start").getD (.int 0))

/-- The largest of the items of a value; a value that counts as false is no group of values. -/
def largest (v : Value) : Act Value := do
  if v.truthy then
    match ← m.best? Unifier.larger none v with
    | some best => return best
    | none => (Misuse.emptyChoice "max").stop
  else Run.reject .nothingToUnify

end Machine

end SymbolicPaths.Script
