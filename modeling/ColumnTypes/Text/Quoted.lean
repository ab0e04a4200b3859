import ColumnTypes.Text.Printable

namespace ColumnTypes.Text

/-!
# Quoted text

A text between quotes. Quotes, backslashes, tabs and line ends have short escapes,
and other characters that are not printable are written as their code points.
-/

/-- The code point in hexadecimal digits, as few as it takes. -/
def codeEscape (c : Char) : List Char :=
  '\\' :: 'u' :: '\x7b' :: Nat.toDigits 16 c.toNat ++ ['\x7d']

def quotedChar (c : Char) : List Char :=
  if c = '"' then ['\\', '"']
  else if c = '\\' then ['\\', '\\']
  else if c = '\x00' then ['\\', '0']
  else if c = '\t' then ['\\', 't']
  else if c = '\n' then ['\\', 'n']
  else if c = '\r' then ['\\', 'r']
  else if isPrintable c then [c]
  else codeEscape c

def quoted (s : String) : String := String.ofList ('"' :: s.toList.flatMap quotedChar ++ ['"'])

end ColumnTypes.Text
