import DualForm.Text.Unprintable

/-!
# Quoted strings

* `quotedChar` — the spelling of one character inside double quotes: `\0`, `\t`, `\r` and `\n`, a
  backslash before `"` and `\`, `\u{…}` with the code point in lower-case hexadecimal for a character
  without a visible form, the character itself otherwise.
* `quoted` — a string in double quotes, every character spelled so.
-/

namespace DualForm

/-- Lower-case hexadecimal digits without leading zeros. -/
def hexText (n : Nat) : String := String.ofList (Nat.toDigits 16 n)

/-- Spelling of one character between double quotes. -/
def quotedChar (c : Char) : String :=
  if c = '\x00' then "\\0"
  else if c = '\t' then "\\t"
  else if c = '\r' then "\\r"
  else if c = '\n' then "\\n"
  else if c = '"' then "\\\""
  else if c = '\\' then "\\\\"
  else if isUnprintable c then "\\u\x7b" ++ hexText c.toNat ++ "\x7d"
  else c.toString

/-- A string between double quotes. -/
def quoted (s : String) : String :=
  "\"" ++ String.join (s.toList.map quotedChar) ++ "\""

end DualForm
