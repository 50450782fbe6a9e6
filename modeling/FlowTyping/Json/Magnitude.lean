import FlowTyping.Json
import FlowTyping.Text.Magnitude

/-!
# The size of a number in a document

A number is read as the first of its digits, as many as fit 64 bits, times a power of ten. Both are
rounded to 64-bit floating point before they are multiplied, so a number just below the largest one
may come out as infinite although its exact value would not. `Json.staysFinite` says whether it
does not.
-/

namespace FlowTyping.Json

open Text

/-- The multiple of a power of two that is nearest to a number and has at most 53 binary digits
before that power; of two, the even one. -/
def nearestDouble (n : Nat) : Nat :=
  let unit := Nat.pow 2 (n.log2 - 52)
  let count := n / unit
  let excess := 2 * (n % unit)
  if unit < excess ∨ (excess = unit ∧ count % 2 = 1) then (count + 1) * unit else count * unit

/-- A number followed by as many digits as keep it within 64 bits, and how many these are. -/
def absorb : Nat → List Char → Nat × Nat
  | n, [] => (n, 0)
  | n, c :: cs =>
    let longer := digitsValue [c] + 10 * n
    if longer < Nat.pow 2 64 then
      let (all, count) := absorb longer cs
      (all, count + 1)
    else (n, 0)

/-- Whether digits times a power of ten stay below infinity. -/
def scalesFinitely (significand : Nat) (exponent : Int) : Bool :=
  significand = 0 || exponent < 0 || (exponent ≤ 308 &&
    nearestDouble significand * nearestDouble (Nat.pow 10 exponent.toNat) < overflowBound)

/-- Whether the number that a text spells is read as a finite one. -/
def staysFinite (spelling : List Char) : Bool :=
  let isMark := fun c => c = 'e' || c = 'E'
  let mantissa := spelling.takeWhile fun c => !isMark c
  let exponent := spelling.dropWhile fun c => !isMark c
  let whole := (mantissa.takeWhile (· ≠ '.')).filter (·.isDigit)
  let fraction := (mantissa.dropWhile (· ≠ '.')).filter (·.isDigit)
  let (head, used) := absorb 0 whole
  let (significand, places) := absorb head fraction
  let shown : Int := digitsValue (exponent.filter (·.isDigit))
  scalesFinitely significand
    ((whole.length - used : Nat) - (places : Int) + (if '-' ∈ exponent then -shown else shown))

end FlowTyping.Json
