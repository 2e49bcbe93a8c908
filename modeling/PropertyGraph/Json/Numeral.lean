import PropertyGraph.Json.Basic

namespace PropertyGraph.Json

/-- A number as it is spelled: digits before the point, digits after it, and the exponent. -/
structure Numeral where
  negative : Bool
  whole : List Char
  fraction : Option (List Char)
  exponent : Option (Bool × List Char)

def digitValue (c : Char) : Nat := c.toNat - '0'.toNat

def digitsValue (digits : List Char) : Nat :=
  digits.foldl (fun n c => n * 10 + digitValue c) 0

/-- Extends a significand by the digits, up to the first one that no longer fits 64 bits. Also
gives the digits left over. -/
def significand (n : Nat) : List Char → Nat × List Char
  | [] => (n, [])
  | c :: rest =>
    if n * 10 + digitValue c < 0x10000000000000000 then significand (n * 10 + digitValue c) rest
    else (n, c :: rest)

namespace Numeral

/-- The number read as a double: its leading digits that fit 64 bits, times a power of ten. -/
def double? (n : Numeral) : Option Double :=
  let fraction := n.fraction.getD []
  let (lead, dropped) := significand 0 n.whole
  let (all, left) := significand lead fraction
  let shift : Int := dropped.length - (fraction.length - left.length : Nat)
  let exponent : Int := match n.exponent with
    | none => 0
    | some (true, digits) => -digitsValue digits
    | some (false, digits) => digitsValue digits
  Double.ofDecimal? n.negative all (shift + exponent)

/-- Whole numbers from -2^63 up to 2^64 - 1 are integers. All others are doubles: those with a
point or an exponent, those out of this range, and -0. -/
def value? (n : Numeral) : Option Json :=
  let whole := digitsValue n.whole
  let spelledWhole := n.fraction.isNone && n.exponent.isNone
  if spelledWhole && !n.negative && whole < 0x10000000000000000 then some (.integer whole)
  else if spelledWhole && n.negative && 0 < whole && whole ≤ 0x8000000000000000 then some (.integer (-whole))
  else n.double?.map .double

end Numeral

end PropertyGraph.Json
