import FlowTyping.Text.Digits
import FlowTyping.Toml.Layout

/-!
# Quoted strings

A string stands between two quotes on one line, or between two triples of quotes on any number of
lines. Between double quotes a backslash starts an escape; between single quotes it stands for
itself. A string is read in two steps: `Quoting.body?` finds its end, and `Quoting.text?` finds
what the characters before it spell.
-/

namespace FlowTyping.Toml

open Text

/-- How a string is written. -/
structure Quoting where
  quote : Char
  /-- Whether a backslash starts an escape. -/
  escapes : Bool
  /-- Whether the string stands between triples of quotes. -/
  triple : Bool

def literalQuote : Char := Char.ofNat 39

/-- The way to write a string on one line that a quote opens. -/
def quoting? (c : Char) : Option Quoting :=
  if c = '"' then some ⟨c, true, false⟩
  else if c = literalQuote then some ⟨c, false, false⟩
  else none

/-- The character with the number that hexadecimal digits spell; none of the surrogates. -/
def numberedChar? (digits : List Char) : Option Char :=
  (numeral? 16 digits).bind fun n => if n.isValidChar then some (Char.ofNat n) else none

def escaped? (c : Char) : Option Char :=
  if c = '"' then some '"'
  else if c = '\\' then some '\\'
  else if c = 'b' then some (Char.ofNat 8)
  else if c = 'f' then some (Char.ofNat 12)
  else if c = 'n' then some '\n'
  else if c = 'r' then some '\r'
  else if c = 't' then some '\t'
  else none

/-- What the body of a string with escapes spells. A backslash at the end of a line leaves out
the line end and the blanks and line ends after it; `folded` says whether those at the start are
being left out. -/
def unescape? : (folded : Bool) → List Char → Option (List Char)
  | _, [] => some []
  | _, ['\\'] => none
  | _, '\\' :: 'u' :: a :: b :: c :: d :: rest =>
    match numberedChar? [a, b, c, d], unescape? false rest with
    | some c, some text => some (c :: text)
    | _, _ => none
  | _, '\\' :: 'U' :: a :: b :: c :: d :: e :: f :: g :: h :: rest =>
    match numberedChar? [a, b, c, d, e, f, g, h], unescape? false rest with
    | some c, some text => some (c :: text)
    | _, _ => none
  | _, '\\' :: c :: rest =>
    match escaped? c, skipSpace (c :: rest) with
    | some c, _ => (unescape? false rest).map (c :: ·)
    | none, '\n' :: _ => unescape? true rest
    | none, _ => none
  | folded, c :: rest =>
    if folded && (c = ' ' || c = '\t' || c = '\n') then unescape? true rest
    else (unescape? false rest).map (c :: ·)

namespace Quoting

def admits (q : Quoting) (c : Char) : Bool :=
  isPlain c || (q.triple && (c = '\n' || c = '\r'))

/-- The body of a string after its opening quotes, and what follows its closing quotes. At most
two quotes before a closing triple belong to the body. -/
def body? (q : Quoting) : List Char → Option (List Char × List Char)
  | [] => none
  | c :: rest =>
    if c = q.quote then
      let run := ((c :: rest).takeWhile (· = c)).length
      if !q.triple then some ([], rest)
      else if run < 3 then (q.body? rest).map fun r => (c :: r.1, r.2)
      else some (List.replicate (min (run - 3) 2) c, rest.drop (min (run - 1) 4))
    else if q.escapes && c = '\\' then
      match rest with
      | [] => none
      | d :: rest =>
        if q.admits d then (q.body? rest).map fun r => (c :: d :: r.1, r.2) else none
    else if q.admits c then (q.body? rest).map fun r => (c :: r.1, r.2)
    else none

def text? (q : Quoting) (body : List Char) : Option String :=
  ((unifyLineEnds? body).bind fun cs => if q.escapes then unescape? false cs else some cs).map
    String.ofList

def string? (q : Quoting) (cs : List Char) : Option (String × List Char) :=
  (q.body? cs).bind fun (body, rest) => (q.text? body).map fun s => (s, rest)

/-- The string after its first quote, which may be the first of three, and what follows its
closing quotes. A line end right after three quotes is left out. -/
def anyString? (q : Quoting) : List Char → Option (String × List Char)
  | a :: b :: rest =>
    if a = q.quote ∧ b = q.quote then
      { q with triple := true }.string? ((afterLineEnd? rest).getD rest)
    else q.string? (a :: b :: rest)
  | cs => q.string? cs

end Quoting

end FlowTyping.Toml
