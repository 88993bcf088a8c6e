import SymbolicPaths.Script.Datum.Same
/-!
# The order of data

Numbers are ordered by size, truth values among them, and texts by code points.  Tuples are ordered
with tuples and lists with lists: by their items at the first place where these do not agree, and by
length if there is no such place.  Nothing else has an order, and a refusal names the two kinds that
met, which are those of the items if it was items that had to be compared.

A tuple with named fields is a tuple of a more special kind, and the more special of two operands is
asked first.  So when a plain tuple is compared with a branch, the operands change places, and every
question about their items is the opposite one.  That makes no difference to the order, only to a
refusal: it names the operands in the places in which they met (`Incomparable.turned`).
-/

namespace SymbolicPaths.Script.Datum

variable {P : Type}

/-- Whether a datum is a tuple without named fields. -/
def isPlainTuple : Datum P → Bool
  | tuple _ => true
  | _ => false

/-- Whether a datum is a tuple with named fields. -/
def isNamedTuple : Datum P → Bool
  | branch .. | delimited .. => true
  | _ => false

/-- Whether the operands are in each other's places once they have been taken apart, given whether
they were before. -/
def turnedInside (turned : Bool) (a b : Datum P) : Bool :=
  if turned then !(b.isPlainTuple && a.isNamedTuple) else a.isPlainTuple && b.isNamedTuple

/-- The refusal to order two data. -/
def incomparable (turned : Bool) (a b : Datum P) : Except Incomparable Ordering :=
  if turned then .error ⟨b.kind, a.kind, true⟩ else .error ⟨a.kind, b.kind, false⟩

mutual

/-- The order of two data, which are in each other's places if `turned`. -/
def orderFrom (turned : Bool) : Datum P → Datum P → Except Incomparable Ordering
  | bool a, d => match d.number? with
    | some n => .ok (compare (if a then 1 else 0) n)
    | none => incomparable turned (bool a) d
  | int a, d => match d.number? with
    | some n => .ok (compare a n)
    | none => incomparable turned (int a) d
  | text a, text b => .ok (compare a b)
  | tuple a, d => match d.fields? with
    | some b => orderItems (turnedInside turned (tuple a) d) a b
    | none => incomparable turned (tuple a) d
  | list a, list b => orderItems turned a b
  | branch s v, d => match d.fields? with
    | none => incomparable turned (branch s v) d
    | some [] => .ok .gt
    | some (s' :: rest) =>
      if same s s' then
        match rest with
        | [] => .ok .gt
        | v' :: more =>
          if same v v' then .ok (if more.isEmpty then .eq else .lt)
          else orderFrom (turnedInside turned (branch s v) d) v v'
      else orderFrom (turnedInside turned (branch s v) d) s s'
  | delimited l r, d => match d.fields? with
    | none => incomparable turned (delimited l r) d
    | some [] => .ok .gt
    | some (l' :: rest) =>
      if same l l' then
        match rest with
        | [] => .ok .gt
        | r' :: more =>
          if same r r' then .ok (if more.isEmpty then .eq else .lt)
          else orderFrom (turnedInside turned (delimited l r) d) r r'
      else orderFrom (turnedInside turned (delimited l r) d) l l'
  | a, b => incomparable turned a b
termination_by structural d => d

/-- The order of two lists of items. -/
def orderItems (turned : Bool) : List (Datum P) → List (Datum P) → Except Incomparable Ordering
  | [], [] => .ok .eq
  | [], _ :: _ => .ok .lt
  | _ :: _, [] => .ok .gt
  | a :: as, b :: bs => if same a b then orderItems turned as bs else orderFrom turned a b
termination_by structural items => items

end

/-- The order of two data. -/
def order (a b : Datum P) : Except Incomparable Ordering := orderFrom false a b

end SymbolicPaths.Script.Datum
