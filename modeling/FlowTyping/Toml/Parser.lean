import FlowTyping.Toml.Moment
import FlowTyping.Toml.Quoted

/-!
# Reading TOML text

Settings `key = value`, one a line, under the headers of tables and of items in lists of tables.
Keys are bare, quoted or dotted. Values are truth values, numbers, dates and times, strings,
arrays, and tables between braces. `nestingLimit` bounds the parts of a key and the depth to which
arrays and braces nest.
-/

namespace FlowTyping.Toml

open Text

/-- A key has fewer parts than this, and fewer brackets and braces are open at a time. -/
def nestingLimit : Nat := 80

def isBareKeyChar (c : Char) : Bool := c.isAlphanum || c = '_' || c = '-'

def keyPart? : List Char → Option (String × List Char)
  | [] => none
  | c :: rest =>
    match quoting? c with
    | some q => q.string? rest
    | none =>
      let text := (c :: rest).takeWhile isBareKeyChar
      if text.isEmpty then none else some (String.ofList text, (c :: rest).dropWhile isBareKeyChar)

/-- The parts of a key, separated by dots, and the rest after blanks. -/
def keyParts? : (fuel : Nat) → List Char → Option (List String × List Char)
  | 0, _ => none
  | fuel + 1, cs =>
    match keyPart? (skipSpace cs) with
    | none => none
    | some (part, rest) =>
      match skipSpace rest with
      | '.' :: rest => (keyParts? fuel rest).map fun r => (part :: r.1, r.2)
      | rest => some ([part], rest)

/-- A key without its last part. -/
structure Key where
  path : List String
  last : String

def key? (cs : List Char) : Option (Key × List Char) :=
  (keyParts? (cs.length + 1) cs).bind fun (parts, rest) =>
    if parts.length < nestingLimit then some (⟨parts.dropLast, parts.getLastD ""⟩, rest) else none

mutual

/-- The value at the start of a text, and the rest; brackets and braces may nest so deep. -/
def value? : (fuel depth : Nat) → List Char → Option (Toml × List Char)
  | 0, _, _ => none
  | _, _, [] => none
  | fuel + 1, depth, c :: rest =>
    match quoting? c with
    | some q => (q.anyString? rest).map fun r => (.string r.1, r.2)
    | none =>
      if c = '[' then
        match depth with
        | 0 => none
        | depth + 1 =>
          (items? fuel depth (skipLayout false rest)).map fun r => (.array r.1, r.2)
      else if c = '\x7b' then
        match depth with
        | 0 => none
        | depth + 1 =>
          match skipSpace rest with
          | '\x7d' :: rest => some (.table .braces [], rest)
          | rest => (members? fuel depth [] rest).map fun r => (.table .braces r.1, r.2)
      else if c = 't' then (afterWord? "rue".toList rest).map fun rest => (.boolean true, rest)
      else if c = 'f' then (afterWord? "alse".toList rest).map fun rest => (.boolean false, rest)
      else moment? (c :: rest) <|> number? (c :: rest)

def items? : (fuel depth : Nat) → List Char → Option (List Toml × List Char)
  | _, _, ']' :: rest => some ([], rest)
  | 0, _, _ => none
  | fuel + 1, depth, cs =>
    match value? fuel depth cs with
    | none => none
    | some (item, rest) =>
      match skipLayout false rest with
      | ',' :: rest => (items? fuel depth (skipLayout false rest)).map fun r => (item :: r.1, r.2)
      | ']' :: rest => some ([item], rest)
      | _ => none

/-- The settings between braces up to the closing one, added to those before them, and what
follows it. -/
def members? : (fuel depth : Nat) → Members → List Char → Option (Members × List Char)
  | 0, _, _, _ => none
  | fuel + 1, depth, ms, cs =>
    match key? cs with
    | some (key, '=' :: rest) =>
      match value? fuel depth (skipSpace rest) with
      | none => none
      | some (value, rest) =>
        match ms.putDotted key.path key.last value, skipSpace rest with
        | some ms, ',' :: rest => members? fuel depth ms rest
        | some ms, '\x7d' :: rest => some (ms, rest)
        | _, _ => none
    | _ => none

end

/-- The settings of a text, read under a header and added to those before it. -/
def settings? : (fuel : Nat) → (header : List String) → Members → List Char → Option Members
  | 0, _, _, _ => none
  | fuel + 1, header, ms, cs =>
    match skipSpace cs with
    | [] => some ms
    | '[' :: '[' :: rest =>
      match key? rest with
      | some (key, ']' :: ']' :: rest) =>
        match afterLine? rest, ms.openItem? key.path key.last with
        | some rest, some ms => settings? fuel (key.path ++ [key.last]) ms rest
        | _, _ => none
      | _ => none
    | '[' :: rest =>
      match key? rest with
      | some (key, ']' :: rest) =>
        match afterLine? rest, ms.open? key.path key.last with
        | some rest, some ms => settings? fuel (key.path ++ [key.last]) ms rest
        | _, _ => none
      | _ => none
    | c :: rest =>
      if c = '#' ∨ c = '\n' ∨ c = '\r' then
        (afterLine? (c :: rest)).bind fun rest => settings? fuel header ms rest
      else
        match key? (c :: rest) with
        | some (key, '=' :: rest) =>
          match value? (2 * rest.length + 2) (nestingLimit - 1) (skipSpace rest) with
          | some (value, rest) =>
            match afterLine? rest, ms.put header key.path key.last value with
            | some rest, some ms => settings? fuel header ms rest
            | _, _ => none
          | none => none
        | _ => none

/-- The settings that a text spells; a byte order mark in front is skipped. -/
def parse? (text : String) : Option Members :=
  let cs := match text.toList with
    | '\ufeff' :: rest => rest
    | cs => cs
  settings? (cs.length + 1) [] [] cs

end FlowTyping.Toml
