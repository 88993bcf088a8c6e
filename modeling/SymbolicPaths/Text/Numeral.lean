import SymbolicPaths.Text.Blank
/-!
# Numerals

Whole numbers as people write them into a setting: padding, one optional sign, and decimal digits of
any script in groups joined by single underscores.  A numeral has at most `digitLimit` digits,
whether it is read or written.

`groups?` reads the digits and `parse?` the whole numeral; neither accepts anything else around or
between them.  `numeral?` writes a number in the digits from 0 to 9.
-/

namespace SymbolicPaths.Text

/-- The code points of the zeros of all decimal digit sets; the other nine digits of a set follow
its zero in order. -/
def digitZeros : List Nat := [
  0x30, 0x660, 0x6f0, 0x7c0, 0x966, 0x9e6, 0xa66, 0xae6, 0xb66, 0xbe6, 0xc66, 0xce6, 0xd66, 0xde6,
  0xe50, 0xed0, 0xf20, 0x1040, 0x1090, 0x17e0, 0x1810, 0x1946, 0x19d0, 0x1a80, 0x1a90, 0x1b50,
  0x1bb0, 0x1c40, 0x1c50, 0xa620, 0xa8d0, 0xa900, 0xa9d0, 0xa9f0, 0xaa50, 0xabf0, 0xff10, 0x104a0,
  0x10d30, 0x11066, 0x110f0, 0x11136, 0x111d0, 0x112f0, 0x11450, 0x114d0, 0x11650, 0x116c0, 0x11730,
  0x118e0, 0x11950, 0x11c50, 0x11d50, 0x11da0, 0x16a60, 0x16ac0, 0x16b50, 0x1d7ce, 0x1d7d8, 0x1d7e2,
  0x1d7ec, 0x1d7f6, 0x1e140, 0x1e2f0, 0x1e950, 0x1fbf0]

/-- The value of a decimal digit of any script. -/
def digit? (c : Char) : Option Nat :=
  (digitZeros.find? fun z => z ≤ c.toNat && c.toNat < z + 10).map (c.toNat - ·)

/-- The digits from 0 to 9 have their usual values. -/
theorem digit?_of_isDigit {c : Char} (h : c.isDigit) : digit? c = some (c.toNat - 0x30) := by
  have bounds : 0x30 ≤ c.toNat ∧ c.toNat < 0x30 + 10 := by
    simp only [Char.isDigit, Bool.and_eq_true, decide_eq_true_eq] at h
    have low := UInt32.le_iff_toNat_le.1 h.1
    have high := UInt32.le_iff_toNat_le.1 h.2
    change 48 ≤ c.toNat at low
    change c.toNat ≤ 57 at high
    omega
  simp [digit?, digitZeros, bounds]

/-- The digits of a run of digit groups joined by single underscores: the run starts and ends with a
digit, and no two underscores meet. -/
def groups? : List Char → Option (List Nat)
  | [] => none
  | [c] => do return [← digit? c]
  | c :: '_' :: rest => do return (← digit? c) :: (← groups? rest)
  | c :: rest => do return (← digit? c) :: (← groups? rest)

/-- The number that decimal digits stand for, the most significant first. -/
def ofDigits (digits : List Nat) : Nat := digits.foldl (fun n d => 10 * n + d) 0

/-- The most digits that a numeral may have. -/
def digitLimit : Nat := 4300

/-- The number an unsigned run of digit groups stands for. -/
def magnitude? (s : List Char) : Option Nat := do
  let digits ← groups? s
  if digits.length ≤ digitLimit then return ofDigits digits else none

/-- The sign of a numeral and what follows it. -/
def unsigned : List Char → Bool × List Char
  | '-' :: rest => (true, rest)
  | '+' :: rest => (false, rest)
  | rest => (false, rest)

/-- The number that a numeral stands for. -/
def parse? (s : String) : Option Int :=
  let (negative, rest) := unsigned (trimPadding s.toList)
  (magnitude? rest).map fun n => if negative then -(n : Int) else (n : Int)

/-- How many digits a text has that would be a numeral if it were not for their number. -/
def digits? (s : String) : Option Nat :=
  (groups? (unsigned (trimPadding s.toList)).2).map List.length

/-- The first number with more digits than a numeral may have. -/
def firstTooLong : Nat := Nat.pow 10 digitLimit

/-- The numeral for a number, if it has not too many digits. -/
def numeral? (n : Int) : Option String :=
  if n.natAbs < firstTooLong then some (toString n) else none

theorem numeral?_of_le {n : Int} (h : firstTooLong ≤ n.natAbs) : numeral? n = none :=
  if_neg (Nat.not_lt_of_ge h)

theorem numeral?_of_lt {n : Int} (h : n.natAbs < firstTooLong) : numeral? n = some (toString n) := if_pos h

/-- There are more numbers with as many digits than digits. -/
theorem lt_firstTooLong {m : Nat} (h : m ≤ digitLimit) : m < firstTooLong := by
  unfold firstTooLong
  generalize digitLimit = limit at h
  exact Nat.lt_of_le_of_lt h (Nat.lt_pow_self (by decide))

end SymbolicPaths.Text
