import FlowTyping.Json
import FlowTyping.Text.Digits

/-!
# Reading JSON text

A strict reader: one document between blanks, no comments, no trailing commas, no raw control
characters in strings. Nesting is not limited here. `Json.parse?` is meant to invert
`Json.compact`.
-/

namespace FlowTyping.Json

open Text

/-- A piece of a string: a character, or half or all of one given as a 16-bit number. -/
inductive Piece where
  | char (c : Char)
  | unit (n : Nat)

def fourHexDigits? (a b c d : Char) : Option Nat :=
  match hexDigit? a, hexDigit? b, hexDigit? c, hexDigit? d with
  | some a, some b, some c, some d => some (((a * 16 + b) * 16 + c) * 16 + d)
  | _, _, _, _ => none

def unescape? (c : Char) : Option Char :=
  if c = '"' then some '"'
  else if c = '\\' then some '\\'
  else if c = '/' then some '/'
  else if c = 'b' then some (Char.ofNat 8)
  else if c = 'f' then some (Char.ofNat 12)
  else if c = 'n' then some '\n'
  else if c = 'r' then some '\r'
  else if c = 't' then some '\t'
  else none

/-- The pieces of a string up to its closing quote, and what follows the quote. -/
def stringPieces : List Char → Option (List Piece × List Char)
  | [] => none
  | '"' :: rest => some ([], rest)
  | '\\' :: 'u' :: a :: b :: c :: d :: rest =>
    match fourHexDigits? a b c d, stringPieces rest with
    | some n, some (pieces, after) => some (.unit n :: pieces, after)
    | _, _ => none
  | '\\' :: c :: rest =>
    match unescape? c, stringPieces rest with
    | some c, some (pieces, after) => some (.char c :: pieces, after)
    | _, _ => none
  | c :: rest =>
    if c.toNat < 32 then none
    else match stringPieces rest with
      | some (pieces, after) => some (.char c :: pieces, after)
      | none => none

/-- The text that pieces spell; none if half of a surrogate pair stands alone. -/
def spell? : List Piece → Option (List Char)
  | [] => some []
  | .char c :: pieces => (spell? pieces).map (c :: ·)
  | .unit n :: pieces =>
    if 0xd800 ≤ n ∧ n < 0xdc00 then
      match pieces with
      | .unit m :: pieces =>
        if 0xdc00 ≤ m ∧ m < 0xe000 then
          (spell? pieces).map (Char.ofNat (0x10000 + (n - 0xd800) * 0x400 + (m - 0xdc00)) :: ·)
        else none
      | _ => none
    else if 0xdc00 ≤ n ∧ n < 0xe000 then none
    else (spell? pieces).map (Char.ofNat n :: ·)

def isJsonBlank (c : Char) : Bool := c = ' ' || c = '\n' || c = '\t' || c = '\r'

def skipBlanks (cs : List Char) : List Char := cs.dropWhile isJsonBlank

/-- The fraction at the start of a text, empty if there is none, and the rest. -/
def fraction? : List Char → Option (List Char × List Char)
  | '.' :: rest =>
    let digits := rest.takeWhile (·.isDigit)
    if digits.isEmpty then none else some ('.' :: digits, rest.dropWhile (·.isDigit))
  | cs => some ([], cs)

def sign : List Char → List Char × List Char
  | '+' :: rest => (['+'], rest)
  | '-' :: rest => (['-'], rest)
  | cs => ([], cs)

def exponent? : List Char → Option (List Char × List Char)
  | [] => some ([], [])
  | c :: rest =>
    if c = 'e' ∨ c = 'E' then
      let (s, rest) := sign rest
      let digits := rest.takeWhile (·.isDigit)
      if digits.isEmpty then none else some (c :: (s ++ digits), rest.dropWhile (·.isDigit))
    else some ([], c :: rest)

/-- The digits before the fraction: a zero alone, or digits that start with another one. -/
def wholePart? : List Char → Option (List Char × List Char)
  | [] => none
  | c :: rest =>
    if c = '0' then
      match rest with
      | d :: _ => if d.isDigit then none else some (['0'], rest)
      | [] => some (['0'], [])
    else if c.isDigit then some (c :: rest.takeWhile (·.isDigit), rest.dropWhile (·.isDigit))
    else none

def unsignedNumber? (negative : Bool) (cs : List Char) : Option (Json × List Char) :=
  match wholePart? cs with
  | none => none
  | some (whole, cs) =>
    match fraction? cs with
    | none => none
    | some (frac, cs) =>
      match exponent? cs with
      | none => none
      | some (expo, cs) =>
        let spelling := (if negative then ['-'] else []) ++ whole ++ frac ++ expo
        if frac.isEmpty && expo.isEmpty && !(negative && digitsValue whole = 0) then
          let n : Int := digitsValue whole
          some (integer (if negative then -n else n), cs)
        else some (decimal (String.ofList spelling), cs)

def number? : List Char → Option (Json × List Char)
  | '-' :: rest => unsignedNumber? true rest
  | cs => unsignedNumber? false cs

/-- An object with the given members, malformed if some name spells no text. -/
def ofMembers (members : List (Option String × Json)) : Json :=
  match members.mapM fun m => m.1.map fun name => (name, m.2) with
  | some members => object members
  | none => malformed

mutual

def value? : Nat → List Char → Option (Json × List Char)
  | 0, _ => none
  | fuel + 1, cs =>
    match skipBlanks cs with
    | [] => none
    | '"' :: rest =>
      match stringPieces rest with
      | none => none
      | some (pieces, rest) =>
        match spell? pieces with
        | some text => some (string (String.ofList text), rest)
        | none => some (malformed, rest)
    | '[' :: rest =>
      match skipBlanks rest with
      | ']' :: rest => some (array [], rest)
      | rest => (items? fuel rest).map fun r => (array r.1, r.2)
    | '\x7b' :: rest =>
      match skipBlanks rest with
      | '\x7d' :: rest => some (object [], rest)
      | rest => (members? fuel rest).map fun r => (ofMembers r.1, r.2)
    | 'n' :: rest => (afterWord? "ull".toList rest).map fun rest => (null, rest)
    | 't' :: rest => (afterWord? "rue".toList rest).map fun rest => (bool true, rest)
    | 'f' :: rest => (afterWord? "alse".toList rest).map fun rest => (bool false, rest)
    | cs => number? cs

def items? : Nat → List Char → Option (List Json × List Char)
  | 0, _ => none
  | fuel + 1, cs =>
    match value? fuel cs with
    | none => none
    | some (j, rest) =>
      match skipBlanks rest with
      | ',' :: rest => (items? fuel rest).map fun r => (j :: r.1, r.2)
      | ']' :: rest => some ([j], rest)
      | _ => none

def members? : Nat → List Char → Option (List (Option String × Json) × List Char)
  | 0, _ => none
  | fuel + 1, cs =>
    match skipBlanks cs with
    | '"' :: rest =>
      match stringPieces rest with
      | none => none
      | some (pieces, rest) =>
        let name := (spell? pieces).map String.ofList
        match skipBlanks rest with
        | ':' :: rest =>
          match value? fuel rest with
          | none => none
          | some (j, rest) =>
            match skipBlanks rest with
            | ',' :: rest => (members? fuel rest).map fun r => ((name, j) :: r.1, r.2)
            | '\x7d' :: rest => some ([(name, j)], rest)
            | _ => none
        | _ => none
    | _ => none

end

def parse? (text : String) : Option Json :=
  let cs := text.toList
  match value? (2 * cs.length + 2) cs with
  | some (j, rest) => if (skipBlanks rest).isEmpty then some j else none
  | none => none

end FlowTyping.Json
