import PropertyGraph.Double.Basic

namespace PropertyGraph.Double

/-- A non-negative decimal, `digits * 10 ^ exponent`. -/
structure Decimal where
  digits : Nat
  exponent : Int
deriving DecidableEq

namespace Decimal

/-- The magnitude a correctly rounding reader gives the decimal. -/
def magnitude (d : Decimal) : Nat :=
  nearest (d.digits * Nat.pow 10 d.exponent.toNat) (Nat.pow 10 (-d.exponent).toNat)

/-- Zeros at the end of the digits move into the exponent. -/
def stripZeros : Nat → Decimal → Decimal
  | 0, d => d
  | fuel + 1, d =>
    if d.digits % 10 = 0 then stripZeros fuel ⟨d.digits / 10, d.exponent + 1⟩ else d

end Decimal

/-- The least power of ten above a non-zero value given in steps. -/
def scaleAbove (steps : Nat) : Int :=
  let whole := steps / unit
  if whole = 0 then
    1 - (((List.range 325).find? (fun j => decide (unit ≤ steps * Nat.pow 10 j))).getD 325 : Nat)
  else (Nat.toDigits 10 whole).length

/-- The multiple of `10 ^ exponent` next to the value that reads back as the magnitude. Of two
such multiples the nearer is taken, and of two equally near the even one. -/
def onGrid? (magnitude : Nat) (exponent : Int) : Option Decimal :=
  let num := steps magnitude * Nat.pow 10 (-exponent).toNat
  let den := unit * Nat.pow 10 exponent.toNat
  let below : Decimal := ⟨num / den, exponent⟩
  let above : Decimal := ⟨num / den + 1, exponent⟩
  if below.magnitude = magnitude then
    if above.magnitude = magnitude then
      some (if roundEven num den = num / den then below else above)
    else some below
  else if above.magnitude = magnitude then some above
  else none

/-- The exact value of a magnitude: a step is `5 ^ 1074 / 10 ^ 1074`. -/
def exactDecimal (magnitude : Nat) : Decimal := ⟨steps magnitude * Nat.pow 5 1074, -1074⟩

/-- The decimal with the fewest digits that reads back as the magnitude. -/
def shortest (magnitude : Nat) : Decimal :=
  let top := scaleAbove (steps magnitude)
  let found := (List.range 17).findSome? (fun n => onGrid? magnitude (top - (n + 1 : Nat)))
  (found.getD (exactDecimal magnitude)).stripZeros 1100

/-- Decimals with a leading digit worth at least 10^-5 and less than 10^16 are written
positionally, always with a fraction; the others with a signed exponent. -/
def layout (d : Decimal) : String :=
  let digits := Nat.toDigits 10 d.digits
  let point : Int := digits.length + d.exponent
  if -5 < point && point ≤ 16 then
    if point ≤ 0 then
      String.ofList (['0', '.'] ++ List.replicate (-point).toNat '0' ++ digits)
    else if digits.length ≤ point.toNat then
      String.ofList (digits ++ List.replicate (point.toNat - digits.length) '0' ++ ['.', '0'])
    else
      String.ofList (digits.take point.toNat ++ ['.'] ++ digits.drop point.toNat)
  else
    let power := point - 1
    let lead := match digits with
      | [] => []
      | [c] => [c]
      | c :: rest => c :: '.' :: rest
    let sign := if power < 0 then '-' else '+'
    String.ofList (lead ++ ['e', sign] ++ Nat.toDigits 10 power.natAbs)

/-- The shortest text that reads back as the finite number. -/
def text (x : Double) : String :=
  let absolute := if x.magnitude = 0 then "0.0" else layout (shortest x.magnitude)
  if x.negative then "-" ++ absolute else absolute

def powerOfTen (k : Nat) : Nat := nearest (Nat.pow 10 k) 1

def timesPower (magnitude k : Nat) : Nat :=
  nearest (steps magnitude * steps (powerOfTen k)) (unit * unit)

def overPower (magnitude k : Nat) : Nat := nearest (steps magnitude) (steps (powerOfTen k))

/-- Division by `10 ^ k`, in parts when `10 ^ k` is no finite number. A significand below 2^64
vanishes after the second part. -/
def shrink (magnitude k : Nat) : Nat :=
  if k ≤ 308 then overPower magnitude k
  else if k ≤ 616 then overPower (overPower magnitude 308) (k - 308)
  else 0

/-- Reads `significand * 10 ^ exponent` in two roundings: the significand becomes a double,
which is then multiplied or divided by the power of ten. There is no result when the number
is too large to be finite. -/
def ofDecimal? (negative : Bool) (significand : Nat) (exponent : Int) : Option Double :=
  let lead := nearest significand 1
  if exponent < 0 then some (ofMagnitude negative (shrink lead exponent.natAbs))
  else if lead = 0 then some (ofMagnitude negative 0)
  else if 308 < exponent then none
  else
    let product := timesPower lead exponent.natAbs
    if product < infinite then some (ofMagnitude negative product) else none

end PropertyGraph.Double
