namespace PropertyGraph

/-- A number in double precision, as its sign bit and the other 63 bits of its encoding.
Magnitudes count upward from zero through every finite number to infinity, so comparing
magnitudes compares absolute values. -/
structure Double where
  negative : Bool
  magnitude : Nat
  magnitude_lt : magnitude < 0x8000000000000000
deriving DecidableEq

namespace Double

/-- The sign bit, which is above all magnitudes: 2^63. -/
def signBit : Nat := 0x8000000000000000

/-- The number of magnitudes to one exponent: 2^52. -/
def binade : Nat := 0x10000000000000

/-- The number of steps to one: 2^1074. -/
def unit : Nat := Nat.pow 2 1074

/-- The magnitude of infinity. Whatever lies above it is not a number. -/
def infinite : Nat := 2047 * binade

theorem infinite_lt : infinite < 0x8000000000000000 := by decide

def ofBits (bits : UInt64) : Double :=
  ⟨decide (signBit ≤ bits.toNat), bits.toNat % signBit, Nat.mod_lt _ (by decide)⟩

def toBits (x : Double) : UInt64 :=
  UInt64.ofNat (if x.negative then signBit + x.magnitude else x.magnitude)

/-- The number of the given sign, infinite when the magnitude is too large to be finite. -/
def ofMagnitude (negative : Bool) (magnitude : Nat) : Double :=
  ⟨negative, min magnitude infinite, Nat.lt_of_le_of_lt (Nat.min_le_right _ _) infinite_lt⟩

def zero : Double := ofMagnitude false 0

def isNaN (x : Double) : Bool := decide (infinite < x.magnitude)

def isFinite (x : Double) : Bool := decide (x.magnitude < infinite)

/-- The signed magnitude. Both zeros have key 0. -/
def key (x : Double) : Int := if x.negative then -(x.magnitude : Int) else x.magnitude

/-- The order of two numbers; there is none when either is not a number. -/
def compare? (x y : Double) : Option Ordering :=
  if x.isNaN || y.isNaN then none else some (compare x.key y.key)

/-- Numeric equality: the zeros are equal, and no NaN equals anything. -/
def equal (x y : Double) : Bool := !x.isNaN && !y.isNaN && x.key == y.key

/-- The exact absolute value of a finite magnitude, counted in steps of 2^-1074. -/
def steps (magnitude : Nat) : Nat :=
  let exponent := magnitude / binade
  let fraction := magnitude % binade
  if exponent = 0 then fraction else (binade + fraction) * Nat.pow 2 (exponent - 1)

/-- The quotient rounded to a whole number, a half going to the even neighbour. -/
def roundEven (num den : Nat) : Nat :=
  let quotient := num / den
  let twice := 2 * (num % den)
  if twice < den then quotient
  else if den < twice then quotient + 1
  else if quotient % 2 = 0 then quotient
  else quotient + 1

/-- The magnitude nearest to `num / den`, a half going to the even neighbour. A quotient of
at least 2^53 steps keeps its 53 leading bits; the rest is cut by the shift. -/
def nearest (num den : Nat) : Nat :=
  let scaled := num * unit
  let shift := (scaled / den).log2 - 52
  min (shift * binade + roundEven scaled (den * Nat.pow 2 shift)) infinite

def ofInt (i : Int) : Double := ofMagnitude (decide (i < 0)) (nearest i.natAbs 1)

/-- The value of a finite number without fractional part. -/
def whole? (x : Double) : Option Int :=
  if x.isFinite && steps x.magnitude % unit == 0 then
    let n : Int := (steps x.magnitude / unit : Nat)
    some (if x.negative then -n else n)
  else none

end Double

end PropertyGraph
