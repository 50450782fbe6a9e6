/-!
# JSON documents

A document keeps the members of an object in order, with repetitions. Whole numbers are kept as
integers of any size; a number with a fraction or an exponent, or a negative zero, is kept as it
is spelled. `Json.malformed` is a piece that can be skipped but holds no text: a string with half
of a surrogate pair, or an object with such a member name.

`Json.compact` writes a document on one line, `Json.pretty` over indented lines.
-/

namespace FlowTyping

inductive Json where
  | null
  | bool (value : Bool)
  | integer (value : Int)
  | decimal (spelling : String)
  | string (value : String)
  | malformed
  | array (items : List Json)
  | object (members : List (String × Json))

namespace Json

def twoHexDigits (n : Nat) : List Char :=
  [Nat.digitChar (n / 16), Nat.digitChar (n % 16)]

/-- The form in which a character appears in a string. -/
def escape (c : Char) : List Char :=
  if c = '"' then ['\\', '"']
  else if c = '\\' then ['\\', '\\']
  else if c = '\n' then ['\\', 'n']
  else if c = '\r' then ['\\', 'r']
  else if c = '\t' then ['\\', 't']
  else if c.toNat = 8 then ['\\', 'b']
  else if c.toNat = 12 then ['\\', 'f']
  else if c.toNat < 32 then ['\\', 'u', '0', '0'] ++ twoHexDigits c.toNat
  else [c]

def quoted (s : String) : List Char :=
  '"' :: (s.toList.flatMap escape ++ ['"'])

/-- The decimal digits of an integer, after its sign if it is negative. -/
def integerText (n : Int) : List Char :=
  if n < 0 then '-' :: Nat.toDigits 10 n.natAbs else Nat.toDigits 10 n.natAbs

mutual

/-- A document without blanks. A malformed piece is written as `null`. -/
def chars : Json → List Char
  | null => "null".toList
  | bool true => "true".toList
  | bool false => "false".toList
  | integer n => integerText n
  | decimal spelling => spelling.toList
  | string s => quoted s
  | malformed => "null".toList
  | array items => '[' :: (itemChars items ++ [']'])
  | object members => '\x7b' :: (memberChars members ++ ['\x7d'])

def itemChars : List Json → List Char
  | [] => []
  | [j] => chars j
  | j :: js => chars j ++ ',' :: itemChars js

def memberChars : List (String × Json) → List Char
  | [] => []
  | [(name, j)] => quoted name ++ ':' :: chars j
  | (name, j) :: ms => quoted name ++ ':' :: (chars j ++ ',' :: memberChars ms)

end

def compact (j : Json) : String := String.ofList j.chars

/-- The start of a line, two blanks for each level. -/
def newLine (level : Nat) : String := "\n" ++ String.ofList (List.replicate (2 * level) ' ')

mutual

/-- A document over indented lines, inside so many levels. -/
def prettyAt (level : Nat) : Json → String
  | array [] => "[]"
  | object [] => "\x7b\x7d"
  | array items => "[" ++ prettyItems (level + 1) items ++ newLine level ++ "]"
  | object members => "\x7b" ++ prettyMembers (level + 1) members ++ newLine level ++ "\x7d"
  | j => j.compact

def prettyItems (level : Nat) : List Json → String
  | [] => ""
  | [j] => newLine level ++ prettyAt level j
  | j :: js => newLine level ++ prettyAt level j ++ "," ++ prettyItems level js

def prettyMembers (level : Nat) : List (String × Json) → String
  | [] => ""
  | [(name, j)] =>
    newLine level ++ String.ofList (quoted name) ++ ": " ++ prettyAt level j
  | (name, j) :: ms =>
    newLine level ++ String.ofList (quoted name) ++ ": " ++ prettyAt level j ++ "," ++
      prettyMembers level ms

end

/-- A document over lines indented by two blanks a level; empty arrays and objects stay on one
line. -/
def pretty (j : Json) : String := prettyAt 0 j

end Json

end FlowTyping
