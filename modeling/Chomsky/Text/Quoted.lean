import Chomsky.Text.Glyphless

/-!
# Quoted names

A name is quoted between double quotes. Quotes and backslashes are escaped, so
is every character that has no glyph of its own; the common controls have short
escapes and all others give their code point in hexadecimal.
-/

set_option autoImplicit false

namespace Chomsky

/-- A code point as an escape. -/
def codePointEscape (c : Char) : String :=
  "\\u\x7b" ++ String.ofList (Nat.toDigits 16 c.toNat) ++ "\x7d"

/-- A character as it stands between quotes. -/
def quotedChar (c : Char) : String :=
  if c = '"' then "\\\""
  else if c = '\\' then "\\\\"
  else if c = '\t' then "\\t"
  else if c = '\r' then "\\r"
  else if c = '\n' then "\\n"
  else if c.toNat = 0 then "\\0"
  else if isGlyphless c then codePointEscape c
  else String.singleton c

/-- A text between quotes. -/
def quoted (text : String) : String :=
  "\"" ++ String.join (text.toList.map quotedChar) ++ "\""

/-- Several texts between quotes, set in braces. -/
def quotedSet (texts : List String) : String :=
  "\x7b" ++ ", ".intercalate (texts.map quoted) ++ "\x7d"

end Chomsky
