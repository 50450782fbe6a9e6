import FlowTyping.Text.Quoted

/-!
# Literals

The constants an expression can spell out, and their written form.
-/

namespace FlowTyping

inductive Literal where
  | boolean (value : Bool)
  | null
  | integer (value : Int64)
  | char (value : Char)
  | string (value : String)
deriving DecidableEq

/-- The written form of a literal. A character stands bare between its quotes. -/
def Literal.text : Literal → String
  | boolean value => if value then "true" else "false"
  | null => "null"
  | integer value => toString value.toInt
  | char value => "'" ++ value.toString ++ "'"
  | string value => Text.quote value

end FlowTyping
