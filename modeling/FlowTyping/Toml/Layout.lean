/-!
# Blanks, comments and line ends

What may stand between the parts of a settings file. A line ends with a line feed, alone or after
a carriage return; a comment reaches from `#` to the end of its line.
-/

namespace FlowTyping.Toml

/-- Whether a character may stand in a comment: a tab or no control character. -/
def isPlain (c : Char) : Bool := c = '\t' || (32 ≤ c.toNat && c.toNat ≠ 127)

def skipSpace (cs : List Char) : List Char := cs.dropWhile fun c => c = ' ' || c = '\t'

def afterLineEnd? : List Char → Option (List Char)
  | [] => some []
  | '\n' :: rest => some rest
  | '\r' :: '\n' :: rest => some rest
  | _ => none

/-- What follows a line on which only a comment may be left. -/
def afterLine? (cs : List Char) : Option (List Char) :=
  match skipSpace cs with
  | '#' :: rest => afterLineEnd? (rest.dropWhile isPlain)
  | rest => afterLineEnd? rest

/-- What follows blanks, line ends and comments, inside a comment or not. -/
def skipLayout : (inComment : Bool) → List Char → List Char
  | _, [] => []
  | _, '\n' :: rest => skipLayout false rest
  | _, '\r' :: '\n' :: rest => skipLayout false rest
  | true, c :: rest => if isPlain c then skipLayout true rest else c :: rest
  | false, c :: rest =>
    if c = ' ' ∨ c = '\t' then skipLayout false rest
    else if c = '#' then skipLayout true rest
    else c :: rest

/-- A text in which every line ends with a line feed alone; none if a carriage return stands
elsewhere than before a line feed. -/
def unifyLineEnds? : List Char → Option (List Char)
  | [] => some []
  | '\r' :: '\n' :: rest => (unifyLineEnds? rest).map ('\n' :: ·)
  | c :: rest => if c = '\r' then none else (unifyLineEnds? rest).map (c :: ·)

end FlowTyping.Toml
