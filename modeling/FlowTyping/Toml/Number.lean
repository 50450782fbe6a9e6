import FlowTyping.Text.Magnitude
import FlowTyping.Toml

/-!
# Numbers

Integers of 64 bits, decimal or in the bases that `0x`, `0o` and `0b` announce, and numbers with a
fraction, an exponent or both. An underscore may stand between two digits.
-/

namespace FlowTyping.Toml

open Text

/-- Whether every underscore stands between two digits. -/
def wellSeparated : (afterDigit : Bool) → List Char → Bool
  | afterDigit, [] => afterDigit
  | afterDigit, c :: cs =>
    if c = '_' then afterDigit && wellSeparated false cs else wellSeparated true cs

/-- The number that digits of a base spell, with underscores between them, and the rest. -/
def digits? (base : Nat) (cs : List Char) : Option (Nat × List Char) :=
  let isPart := fun c => c = '_' || (digit? base c).isSome
  let part := cs.takeWhile isPart
  if wellSeparated false part then
    (numeral? base (part.filter (· ≠ '_'))).map fun n => (n, cs.dropWhile isPart)
  else none

/-- A decimal number and the rest; only zero itself starts with a zero. -/
def decimal? : List Char → Option (Nat × List Char)
  | '0' :: rest => some (0, rest)
  | cs => digits? 10 cs

/-- Whether a text starts with a minus sign, and what follows a sign if there is one. -/
def signed : List Char → Bool × List Char
  | '+' :: rest => (false, rest)
  | '-' :: rest => (true, rest)
  | cs => (false, cs)

def afterFraction? : List Char → Option (List Char)
  | '.' :: rest => (digits? 10 rest).map (·.2)
  | cs => some cs

def afterExponent? : List Char → Option (List Char)
  | [] => some []
  | c :: rest =>
    if c = 'e' ∨ c = 'E' then (digits? 10 (signed rest).2).map (·.2) else some (c :: rest)

/-- What a text spells up to a given rest. -/
def spelling (cs rest : List Char) : String := String.ofList (cs.take (cs.length - rest.length))

def ofInt? (n : Int) : Option Toml :=
  if (Int64.ofInt n).toInt = n then some (.integer (Int64.ofInt n)) else none

/-- The decimal number at the start of a text and the rest. A positive number must not be too
large for 64-bit floating point. -/
def decimalNumber? (cs : List Char) : Option (Toml × List Char) := do
  let (negative, unsigned) := signed cs
  let (n, afterWhole) ← decimal? unsigned
  let rest ← (afterFraction? afterWhole).bind afterExponent?
  if rest.length = afterWhole.length then
    (ofInt? (if negative then -(n : Int) else n)).map fun number => (number, rest)
  else
    let text := spelling cs rest
    let digits := String.ofList (text.toList.filter (· ≠ '_'))
    if negative || isInRange digits then some (.float text, rest) else none

/-- An infinity or a number that is none, and the rest. -/
def specialNumber? (cs : List Char) : Option (Toml × List Char) :=
  let unsigned := (signed cs).2
  (afterWord? "inf".toList unsigned <|> afterWord? "nan".toList unsigned).map fun rest =>
    (.float (spelling cs rest), rest)

def number? (cs : List Char) : Option (Toml × List Char) :=
  let based := fun base digits => (digits? base digits).bind fun (n, rest) =>
    (ofInt? n).map fun number => (number, rest)
  match cs with
  | '0' :: 'x' :: digits => based 16 digits
  | '0' :: 'o' :: digits => based 8 digits
  | '0' :: 'b' :: digits => based 2 digits
  | cs => specialNumber? cs <|> decimalNumber? cs

end FlowTyping.Toml
