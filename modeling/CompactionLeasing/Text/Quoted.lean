import CompactionLeasing.Text.Unprintable

/-!
# Quoted text

How a text is shown inside a message: in double quotes, on one line, with everything that has no
glyph of its own escaped.
-/

namespace CompactionLeasing.Text

/-- A character inside quotes: the quote, the backslash and four controls have short escapes, and any
other unprintable character is named by its code point in hexadecimal. -/
def quotedChar (c : Char) : List Char :=
  if c = '"' then ['\\', '"']
  else if c = '\\' then ['\\', '\\']
  else if c = '\n' then ['\\', 'n']
  else if c = '\r' then ['\\', 'r']
  else if c = '\t' then ['\\', 't']
  else if c = '\x00' then ['\\', '0']
  else if isUnprintable c then '\\' :: 'u' :: '{' :: Nat.toDigits 16 c.toNat ++ ['}']
  else [c]

/-- The text between double quotes, escaped. -/
def quoted (s : String) : String := String.ofList ('"' :: s.toList.flatMap quotedChar ++ ['"'])

end CompactionLeasing.Text
