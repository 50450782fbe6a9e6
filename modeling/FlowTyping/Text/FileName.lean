/-!
# File names
-/

namespace FlowTyping.Text

/-- What follows the last dot of a path's last part; empty if there is no dot, or none but the
one in front. -/
def extension (path : String) : String :=
  let reversed := path.toList.reverse.takeWhile (· ≠ '/')
  let ending := reversed.takeWhile (· ≠ '.')
  match reversed.drop ending.length with
  | _ :: _ :: _ => String.ofList ending.reverse
  | _ => ""

end FlowTyping.Text
