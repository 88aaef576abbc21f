import Cool.Text.Unseen

/-!
# Quoted text

How a string is shown inside of other text: in quotes, on one line, with every character that
would not be seen for what it is replaced by a backslash sequence. Letters of all scripts stay;
characters without a shape of their own are shown by their number in hexadecimal.

* `Quoted.encodeChar`, `Quoted.encode` : one character, and a text between quotes.
-/

namespace Cool.Quoted

/-- What stands for a character between quotes. -/
def encodeChar (c : Char) : List Char :=
  if c = '"' then ['\\', '"']
  else if c = '\\' then ['\\', '\\']
  else if c = '\n' then ['\\', 'n']
  else if c = '\t' then ['\\', 't']
  else if c = '\r' then ['\\', 'r']
  else if c = '\x00' then ['\\', '0']
  else if isUnseen c then ['\\', 'u', '\x7b'] ++ Nat.toDigits 16 c.toNat ++ ['\x7d']
  else [c]

/-- A text between quotes. -/
def encode (s : String) : String :=
  String.ofList ('"' :: (s.toList.flatMap encodeChar ++ ['"']))

example : encode "a\u094db\n" = "\"a\\u\x7b94d\x7db\\n\"" := by
  decide +kernel

end Cool.Quoted
