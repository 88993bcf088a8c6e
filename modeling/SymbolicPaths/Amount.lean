import SymbolicPaths.Term
import SymbolicPaths.Text.Numeral
/-!
# Amounts

A number that steers a run, such as a cap on branches, is either counted by the library or given by
the program.  What a program gives is a term, which may stand for a number or not; that is looked
at only when the amount is compared.
-/

namespace SymbolicPaths

/-- A number, or what a program gave for one. -/
inductive Amount (V : Type) where
  | number (n : Int)
  | given (v : V)

namespace Amount

variable {V : Type} [Term V]

/-- The kind of numbers, as messages name it. -/
def numberKind : String := "int"

/-- The number that an amount stands for, or else the kind of what was given. -/
def value : Amount V → Except String Int
  | number n => .ok n
  | given v =>
    match Term.number? v with
    | some n => .ok n
    | none => .error (Term.kind v)

@[simp] theorem value_number (n : Int) : (number n : Amount V).value = .ok n := rfl

/-- Whether a count is larger than an amount; refused if the amount is no number. -/
def exceededBy (a : Amount V) (count : Nat) : Except Incomparable Bool :=
  match a.value with
  | .ok n => .ok (n < (count : Int))
  | .error kind => .error ⟨numberKind, kind, false⟩

/-- An amount as the number it is to be compared with another; refused if it is none. -/
def counted (a : Amount V) : Except Incomparable Int :=
  match a.value with
  | .ok n => .ok n
  | .error kind => .error ⟨kind, numberKind, false⟩

end Amount

/-- The numeral for a number. -/
def numeral (n : Int) : Except Unwritable String :=
  match Text.numeral? n with
  | some text => .ok text
  | none => .error .tooLong

theorem numeral_of_le {n : Int} (h : Text.firstTooLong ≤ n.natAbs) : numeral n = .error .tooLong := by
  unfold numeral
  rw [Text.numeral?_of_le h]

theorem numeral_of_lt {n : Int} (h : n.natAbs < Text.firstTooLong) : numeral n = .ok (toString n) := by
  unfold numeral
  rw [Text.numeral?_of_lt h]

/-- A number is written as its numeral, anything else as it stands in running text. -/
def Amount.shown? {V : Type} [Term V] : Amount V → Except Unwritable String
  | number n => numeral n
  | given v => Term.shown? v

end SymbolicPaths
