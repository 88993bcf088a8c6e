import SymbolicPaths.Script.Machine
/-!
# Going through items

Lists, tuples, texts and tables have their items at hand.  A generator makes one item after the
other, and making one may note, change or break anything.  So whoever goes through items says when
the next one is wanted: `fold` and `gather` use up each item before they ask for another, as far as
they get, while `drain` first has them all.

A store can be made of anything that gives pairs (`Machine.toStore`), and a pair of anything that
gives two items (`Machine.toPair`).
-/

namespace SymbolicPaths.Script

/-- What a loop over a value goes through. -/
def Value.iter (v : Value) : Act Iter :=
  match v with
  | .object _ (.generator id) => pure (.live id)
  | _ =>
    match v.items? with
    | some items => pure (.items items)
    | none => (Misuse.notIterable v.kind).stop

namespace Machine

variable (m : Machine) {α β : Type}

/-- The next item, and what is left after it. -/
def next : Iter → Act (Option (Value × Iter))
  | .items [] => pure none
  | .items (v :: rest) => pure (some (v, .items rest))
  | .live id => do
    match ← m.step id .null with
    | .ended _ => return none
    | .gave v () => return some (v, .live id)

/-- Goes through items with something that each of them changes. -/
def foldItems (f : β → Value → Act β) : (fuel : Nat) → β → Iter → Act β
  | 0, _, _ => Run.exhausted
  | fuel + 1, b, it => do
    match ← m.next it with
    | none => return b
    | some (v, rest) => foldItems f fuel (← f b v) rest

/-- Goes through the items of a value with something that each of them changes. -/
def fold (f : β → Value → Act β) (b : β) (v : Value) : Act β := do
  m.foldItems f m.fuel b (← v.iter)

/-- What each item of a value is made into, in order. -/
def gather (f : Value → Act α) (v : Value) : Act (List α) := do
  return (← m.fold (fun made i => do return (← f i) :: made) [] v).reverse

/-- Whether each item of a value passes, asking no further after the first that does not. -/
def allItems (passes : Value → Act Bool) : (fuel : Nat) → Iter → Act Bool
  | 0, _ => Run.exhausted
  | fuel + 1, it => do
    match ← m.next it with
    | none => return true
    | some (v, rest) => if ← passes v then allItems passes fuel rest else return false

/-- All items of a value. -/
def drain (v : Value) : Act (List Value) := do
  match ← v.iter with
  | .items items => return items
  | .live _ => m.gather pure v

/-- A value as a pair: it has to give two items and no more. -/
def toPair (v : Value) : Act (Value × Value) := do
  let it ← match v with
    | .object _ (.generator id) => pure (.live id)
    | _ =>
      match v.items? with
      | some items => pure (.items items)
      | none => (Misuse.notPair v.kind).stop
  match ← m.next it with
  | none => (Misuse.tooFewInPair 0).stop
  | some (first, it) =>
    match ← m.next it with
    | none => (Misuse.tooFewInPair 1).stop
    | some (second, it) =>
      match ← m.next it with
      | none => return (first, second)
      | some _ => Misuse.tooManyInPair.stop

/-! ## Tables -/

/-- The key and the value that the item at a place of a table is. -/
def toEntry (place : Nat) (v : Value) : Act (Value × Value) := do
  match ← Run.attempt (m.drain v) with
  | .ok [key, value] =>
    Run.requireKey (Term.unhashable? key)
    return (key, value)
  | .ok items => (Misuse.badEntry place items.length).stop
  | .error fault =>
    if fault.kind = .type then (Misuse.shapelessEntry place).stop else Run.stop fault

/-- A value as a store: a table, pairs of names and values, or nothing for the empty store. -/
def toStore (v : Value) : Act (Store Value) :=
  match v with
  | .null => pure .empty
  | _ =>
    match v.entries? with
    | some entries => pure ⟨entries⟩
    | none => do
      let (_, store) ← m.fold (fun (place, store) item => do
        let (key, value) ← m.toEntry place item
        return (place + 1, store.bind key value)) (0, Store.empty) v
      return store

/-- The arguments of a call by keyword. -/
def toKeywords (v : Value) : Act (List (String × Value)) := do
  match v.entries? with
  | none => Misuse.badOperands.stop
  | some entries =>
    match entries.mapM fun (k, w) => match k with
      | .text s => some (s, w)
      | _ => none with
    | some named => return named
    | none => Misuse.badKeywords.stop

/-- The arguments of a call. -/
def toArgs (positional : Value) (named : Option Value) : Act (Args Value) := do
  let positional ← m.drain positional
  match named with
  | none => return { positional }
  | some named => return { positional, named := ← toKeywords named }

end Machine

end SymbolicPaths.Script
