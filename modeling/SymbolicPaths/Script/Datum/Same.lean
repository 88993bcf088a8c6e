import SymbolicPaths.Script.Datum
/-!
# Equality of data

Data agree by what they hold, with three twists.  A truth value agrees with the number it stands
for.  Tuples, branches and pairs of branch lists agree if their fields do.  A table agrees with a
frozen one, and the order of entries does not matter.  Objects and errors agree only with
themselves, unless they are nothing but a wrapping.

Each function recurs on its left operand and takes the right one apart as it needs.
-/

namespace SymbolicPaths.Script.Datum

variable {P : Type}

mutual

/-- Whether two data agree. -/
def same : Datum P → Datum P → Bool
  | null, null => true
  | bool a, d => d.number? == some (if a then 1 else 0)
  | int a, d => d.number? == some a
  | text a, text b => a == b
  | tuple a, d => match d.fields? with
    | some b => sameItems a b
    | none => false
  | list a, list b => sameItems a b
  | dict a, d => match d.entries? with
    | some b => a.length == b.length && entriesWithin a b
    | none => false
  | frozenDict a, d => match d.entries? with
    | some b => a.length == b.length && entriesWithin a b
    | none => false
  | location r f, location r' f' => same r r' && same f f'
  | chunk l v, chunk l' v' => same l l' && same v v'
  | state store heap, state store' heap' =>
    store.length == store'.length && entriesWithin store store' && sameItems heap heap'
  | branch s v, d => match d.fields? with
    | some [s', v'] => same s s' && same v v'
    | _ => false
  | delimited l r, d => match d.fields? with
    | some [l', r'] => same l l' && same r r'
    | _ => false
  | settings cap debug, settings cap' debug' => same cap cap' && same debug debug'
  | error a _ _, error b _ _ => a.identity == b.identity
  | dropped s e, dropped s' e' => same s s' && same e e'
  | exploration bs fs t, exploration bs' fs' t' => sameItems bs bs' && sameItems fs fs' && t == t'
  | object a _, object b _ => decide (a.identity = b.identity)
  | wrapper a inner _, wrapper b inner' _ => a.kind == b.kind && same inner inner'
  | method f r, method f' r' => r.kind == r'.kind && same r r' && same f f'
  | _, _ => false
termination_by structural d => d

/-- Whether two lists agree item by item. -/
def sameItems : List (Datum P) → List (Datum P) → Bool
  | [], [] => true
  | a :: as, b :: bs => same a b && sameItems as bs
  | _, _ => false
termination_by structural items => items

/-- Whether every entry of one table is in the other. -/
def entriesWithin : List (Datum P × Datum P) → List (Datum P × Datum P) → Bool
  | [], _ => true
  | (k, v) :: rest, others =>
    others.any (fun e => same k e.1 && same v e.2) && entriesWithin rest others
termination_by structural entries => entries

end

end SymbolicPaths.Script.Datum
