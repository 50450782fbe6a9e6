import FlowTyping.Text.Invisible

/-!
# Quoted text

A text between double quotes on one line. Quotes, backslashes and the usual control characters
are written with a backslash; a character without a glyph is written by its number in
hexadecimal. The single quote stands for itself.
-/

namespace FlowTyping.Text

/-- The number of a character in hexadecimal, without leading zeros. -/
def numbered (c : Char) : List Char :=
  '\\' :: 'u' :: '\x7b' :: (Nat.toDigits 16 c.toNat ++ ['\x7d'])

def quoteChar (c : Char) : List Char :=
  if c = '"' then ['\\', '"']
  else if c = '\\' then ['\\', '\\']
  else if c = '\n' then ['\\', 'n']
  else if c = '\r' then ['\\', 'r']
  else if c = '\t' then ['\\', 't']
  else if c.toNat = 0 then ['\\', '0']
  else if isInvisible c then numbered c
  else [c]

def quote (s : String) : String :=
  String.ofList ('"' :: (s.toList.flatMap quoteChar ++ ['"']))

end FlowTyping.Text
