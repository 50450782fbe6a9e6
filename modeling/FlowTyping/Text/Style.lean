/-!
# Styled text

Text for a terminal, with the escape codes of its style when colours are on.
-/

namespace FlowTyping.Text

inductive Weight where
  | bold
  | dimmed

inductive Color where
  | red
  | green
  | yellow
  | cyan

def Weight.code : Weight → String
  | bold => "1"
  | dimmed => "2"

def Color.code : Color → String
  | red => "31"
  | green => "32"
  | yellow => "33"
  | cyan => "36"

/-- A text of some weight and perhaps some colour; plain when colours are off. -/
def styled (colours : Bool) (weight : Weight) (color : Option Color) (s : String) : String :=
  if colours then
    let codes := match color with
      | some color => weight.code ++ ";" ++ color.code
      | none => weight.code
    "\x1b[" ++ codes ++ "m" ++ s ++ "\x1b[0m"
  else s

end FlowTyping.Text
