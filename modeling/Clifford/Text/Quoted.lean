import Clifford.Text.Invisible

/-!
# Quoted text

Text between double quotes, in which each character stands for itself or for an escape.

## Main definitions

- `Quoted.escape` — the spelling of one character
- `Quoted.text` — the quoted form of a text
-/

namespace Clifford.Quoted

/-- The spelling of a character inside quotes: a backslash before the quote and the backslash,
letters for the usual control characters, and the number for what is not printed. -/
def escape (c : Char) : String :=
  if c = '"' then "\\\""
  else if c = '\\' then "\\\\"
  else if c = '\n' then "\\n"
  else if c = '\r' then "\\r"
  else if c = '\t' then "\\t"
  else if c = '\x00' then "\\0"
  else if Invisible.contains c then
    "\\u\x7b" ++ String.ofList (Nat.toDigits 16 c.toNat) ++ "\x7d"
  else c.toString

/-- The quoted form of a text. -/
def text (s : String) : String := "\"" ++ String.join (s.toList.map escape) ++ "\""

end Clifford.Quoted
