import SymbolicPaths.Text.Printable
/-!
# Quoted text

How a text is written inside a larger one.  Single quotes enclose it, unless it holds a single quote
and no double quote.  A backslash and the enclosing quote are escaped, so are the tab, the line feed
and the carriage return; any other unprintable character is written by its code point in the
shortest of three hexadecimal forms.
-/

namespace SymbolicPaths.Text

/-- The lower-case hexadecimal digits of `n`, padded with zeros to at least `width`. -/
def hex (width n : Nat) : List Char :=
  let digits := Nat.toDigits 16 n
  List.replicate (width - digits.length) '0' ++ digits

/-- The quote that encloses a text. -/
def enclosing (s : List Char) : Char :=
  if s.contains '\'' && !s.contains '"' then '"' else '\''

/-- How one character is written between quotes `q`. -/
def escape (q c : Char) : List Char :=
  if c = '\\' ∨ c = q then ['\\', c]
  else if c = '\t' then ['\\', 't']
  else if c = '\n' then ['\\', 'n']
  else if c = '\r' then ['\\', 'r']
  else if isPrintable c then [c]
  else if c.toNat < 0x100 then '\\' :: 'x' :: hex 2 c.toNat
  else if c.toNat < 0x10000 then '\\' :: 'u' :: hex 4 c.toNat
  else '\\' :: 'U' :: hex 8 c.toNat

/-- A text between quotes. -/
def quoted (s : String) : String :=
  let chars := s.toList
  let q := enclosing chars
  String.ofList (q :: chars.flatMap (escape q) ++ [q])

end SymbolicPaths.Text
