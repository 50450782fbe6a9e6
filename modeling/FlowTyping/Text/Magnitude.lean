import FlowTyping.Text.Digits

/-!
# The size of a number that is spelled

Whether a decimal spelling, with a fraction or an exponent, stays within the range of 64-bit
floating-point numbers. The exponent may be far too large to be expanded.
-/

namespace FlowTyping.Text

/-- The least magnitude that rounds to no finite 64-bit floating-point number. -/
def overflowBound : Nat := Nat.pow 2 1024 - Nat.pow 2 970

/-- Whether a number that is spelled with a fraction or an exponent is in range. An exponent is
expanded only as far as it matters: a number below one is in range, and one of more than 400
digits is not. -/
def isInRange (spelling : String) : Bool :=
  let cs := spelling.toList.filter (· ≠ '-')
  let mantissa := cs.takeWhile fun c => c ≠ 'e' && c ≠ 'E'
  let exponent := spelling.toList.dropWhile fun c => c ≠ 'e' && c ≠ 'E'
  let places := ((mantissa.dropWhile (· ≠ '.')).drop 1).length
  let digits := digitsValue (mantissa.filter (·.isDigit))
  let shown : Int := digitsValue (exponent.filter (·.isDigit))
  let scale : Int := (if '-' ∈ exponent then -shown else shown) - places
  if digits = 0 then true
  else if scale < 0 then digits < overflowBound * Nat.pow 10 (min scale.natAbs mantissa.length)
  else if scale > 400 then false
  else digits * Nat.pow 10 scale.toNat < overflowBound

end FlowTyping.Text
