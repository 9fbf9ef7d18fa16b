/-
Text in double quotes.  Quotes and backslashes are escaped, and every character without a glyph of
its own is spelt by its code.
-/
import HopCodec.Text.Invisible

namespace HopCodec

namespace Text

/-- The spelling of a code point: its hexadecimal digits in braces. -/
def codeSpelling (c : Char) : List Char :=
  ['\\', 'u', '\x7b'] ++ Nat.toDigits 16 c.toNat ++ ['\x7d']

/-- The spelling of a character inside quotes. -/
def spelling (c : Char) : List Char :=
  if c = '"' then ['\\', '"']
  else if c = '\\' then ['\\', '\\']
  else if c = '\x00' then ['\\', '0']
  else if c = '\t' then ['\\', 't']
  else if c = '\n' then ['\\', 'n']
  else if c = '\r' then ['\\', 'r']
  else if isInvisible c then codeSpelling c
  else [c]

def quoted (s : String) : String :=
  String.ofList ('"' :: s.toList.flatMap spelling ++ ['"'])

end Text

end HopCodec
