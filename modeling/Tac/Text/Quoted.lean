import Tac.Text.Printable
import Tac.Text.Decimal

/-!
# Quoted text

Texts that appear inside messages are quoted: a double quote and a backslash are escaped, the usual
controls have their letter escapes, and any other character that is not printable is written by its
code.
-/

namespace Tac.Text

/-- A character as it stands between double quotes. -/
def escape (c : Char) : String :=
  let n := c.toNat
  if c = '"' then "\\\""
  else if c = '\\' then "\\\\"
  else if isPrintable c then String.singleton c
  else if n = 7 then "\\a"
  else if n = 8 then "\\b"
  else if n = 9 then "\\t"
  else if n = 10 then "\\n"
  else if n = 11 then "\\v"
  else if n = 12 then "\\f"
  else if n = 13 then "\\r"
  else if n < 0x20 ∨ n = 0x7F then "\\x" ++ hexDigits 2 n
  else if n < 0x10000 then "\\u" ++ hexDigits 4 n
  else "\\U" ++ hexDigits 8 n

/-- A text between double quotes, on one line and with printable characters only. -/
def quote (s : String) : String :=
  "\"" ++ String.join (s.toList.map escape) ++ "\""

end Tac.Text
