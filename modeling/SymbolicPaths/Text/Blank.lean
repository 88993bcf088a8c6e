/-!
# Blank characters

Two sets of characters that count as blank.  `isBlank` is the white space of the character database
with the four information separators U+001C to U+001F; a text of these alone is an absent text.
`isPadding` leaves the separators out; these are the characters that may stand around a numeral.
-/

namespace SymbolicPaths.Text

/-- The information separators. -/
def isInformationSeparator (c : Char) : Bool := 0x1c ≤ c.toNat && c.toNat ≤ 0x1f

/-- White space that may stand around a numeral. -/
def isPadding (c : Char) : Bool :=
  let n := c.toNat
  (0x9 ≤ n && n ≤ 0xd) || n == 0x20 || n == 0x85 || n == 0xa0 || n == 0x1680
    || (0x2000 ≤ n && n ≤ 0x200a) || n == 0x2028 || n == 0x2029 || n == 0x202f || n == 0x205f
    || n == 0x3000

/-- Characters that leave a text blank. -/
def isBlank (c : Char) : Bool := isPadding c || isInformationSeparator c

/-- The white space of plain text is padding, and so it counts as blank. -/
theorem isPadding_of_isWhitespace {c : Char} (h : c.isWhitespace = true) : isPadding c = true := by
  simp only [Char.isWhitespace, Bool.or_eq_true, decide_eq_true_eq] at h
  rcases h with ((rfl | rfl) | rfl) | rfl <;> decide

/-- A text without anything in it but blanks. -/
def allBlank (s : String) : Bool := s.toList.all isBlank

/-- The text without the padding at both ends. -/
def trimPadding (s : List Char) : List Char :=
  ((s.dropWhile isPadding).reverse.dropWhile isPadding).reverse

end SymbolicPaths.Text
