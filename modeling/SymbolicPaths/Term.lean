/-!
# Terms

The library runs programs over *terms* whose meaning it does not know.  All it ever asks of a term
is in the class `Term`: whether two terms are the same, which of two is larger, whether a term can
key a table, what kind of term it is, how it is written, and whether it can be read as one of the
few things that the library has to look into.

Some of these questions may be refused.  Terms of different kinds have no order (`Incomparable`
names the two kinds), and a term with a table inside it cannot key another table.  Writing a term
down can be refused as well (`Unwritable`).  A refusal is a value here, never an exception: whoever
asks decides what it means.

## Foreign things

Programs hand the library whatever they like: a number where a state is due, a text where a chunk is
due.  Such a thing is called *foreign* at that place.  It is carried along unchanged by everything
that does not look into it, and whatever does look into it says which member it lacks.
-/

namespace SymbolicPaths

/-- Two terms that have no order between them, told by the kind of each. -/
structure Incomparable where
  /-- The kind of the first operand. -/
  left : String
  /-- The kind of the second operand. -/
  right : String
  /-- Whether the operands changed places on the way, so that the opposite question was asked. -/
  turned : Bool := false
deriving DecidableEq, Repr

namespace Incomparable

/-- The operator for the opposite question. -/
def opposite : String → String
  | "<" => ">"
  | ">" => "<"
  | "<=" => ">="
  | ">=" => "<="
  | operator => operator

/-- The operator that was refused, given the one that was asked for. -/
def operator (i : Incomparable) (asked : String) : String :=
  if i.turned then opposite asked else asked

@[simp] theorem operator_of_straight (left right asked : String) :
    (⟨left, right, false⟩ : Incomparable).operator asked = asked := rfl

end Incomparable

/-- Why something cannot be written out. -/
inductive Unwritable where
  /-- Names that are listed in order have none. -/
  | unordered (operands : Incomparable)
  /-- A number has more digits than are ever written. -/
  | tooLong
  /-- Something foreign has no such member. -/
  | lacking (kind member : String)
deriving DecidableEq, Repr

/-- Things that can be written out on one line. -/
class Written (α : Type) where
  /-- The text that stands for the thing, unless something inside it cannot be written. -/
  written? : α → Except Unwritable String

/-- A field of a reference. -/
structure Location (V : Type) where
  reference : V
  field : V

/-- What the library asks of the terms that its programs compute with. -/
class Term (V : Type) extends Written V where
  /-- Equality of terms; it may identify terms that are written differently. -/
  same : V → V → Bool
  /-- The order of terms, refused for kinds that have none. -/
  order : V → V → Except Incomparable Ordering
  /-- The kind of the first part that keeps the term from being a key, if there is one. -/
  unhashable? : V → Option String
  /-- The kind of the term, as messages name it. -/
  kind : V → String
  /-- The term as it stands in running text: a text is not quoted. -/
  shown? : V → Except Unwritable String
  /-- The reference and the field of a term that is a location. -/
  location? : V → Option (Location V)
  /-- The number that a term stands for in a comparison with a number. -/
  number? : V → Option Int
  /-- The cap on branches in a term that is installed as settings: nothing if the term has no such
  member, and nothing inside if the member is empty. -/
  cap? : V → Option (Option V)
  /-- The debug switch in a term that is installed as settings. -/
  debug? : V → Option Bool

namespace Term

variable {V : Type} [Term V]

/-- The written form where one is certain to exist; empty for a term that cannot be written. -/
def written {α : Type} [Written α] (a : α) : String :=
  match Written.written? a with
  | .ok text => text
  | .error _ => ""

/-- The running-text form where one is certain to exist. -/
def shown (v : V) : String :=
  match shown? v with
  | .ok text => text
  | .error _ => ""

/-- `a < b`. -/
def less (a b : V) : Except Incomparable Bool := do
  return (← order a b) == .lt

/-- `a > b`; the operands are told in the order in which they are compared. -/
def more (a b : V) : Except Incomparable Bool := do
  return (← order a b) == .gt

end Term

instance : Written Unit := ⟨fun _ => .ok "None"⟩

instance : Written Bool := ⟨fun b => .ok (if b then "True" else "False")⟩

end SymbolicPaths
