import Fettle.Text.Printable

/-!
# Quoted text

`quoted s` shows a text between double quotes, with a backslash before a double quote or
a backslash, short escapes for tab, line feed, carriage return and null, and the code
point in hexadecimal for every other character that is not printable.
-/

namespace Fettle.Text

/-- How one character is shown between double quotes. -/
def escaped (c : Char) : List Char :=
  if c = '\u0000' then ['\\', '0']
  else if c = '\t' then ['\\', 't']
  else if c = '\n' then ['\\', 'n']
  else if c = '\r' then ['\\', 'r']
  else if c = '"' then ['\\', '"']
  else if c = '\\' then ['\\', '\\']
  else if isPrintable c then [c]
  else ['\\', 'u', '{'] ++ Nat.toDigits 16 c.toNat ++ ['}']

/-- A text between double quotes. -/
def quoted (s : String) : String :=
  String.ofList ('"' :: s.toList.flatMap escaped ++ ['"'])

example : quoted "a\t" = "\"a\\t\"" := by decide +kernel

end Fettle.Text
