namespace PropertyGraph.Hex

def ofByte (b : UInt8) : List Char :=
  [Nat.digitChar (b.toNat / 16), Nat.digitChar (b.toNat % 16)]

/-- Two lower-case digits for each byte. -/
def encode (bytes : List UInt8) : String := String.ofList (bytes.flatMap ofByte)

def value? (c : Char) : Option Nat :=
  if '0' ≤ c ∧ c ≤ '9' then some (c.toNat - '0'.toNat)
  else if 'a' ≤ c ∧ c ≤ 'f' then some (c.toNat - 'a'.toNat + 10)
  else if 'A' ≤ c ∧ c ≤ 'F' then some (c.toNat - 'A'.toNat + 10)
  else none

def decodeChars? : List Char → Option (List UInt8)
  | [] => some []
  | [_] => none
  | a :: b :: rest => do
    let a ← value? a
    let b ← value? b
    let bytes ← decodeChars? rest
    return UInt8.ofNat (a * 16 + b) :: bytes

def decode? (text : String) : Option (List UInt8) := decodeChars? text.toList

end PropertyGraph.Hex
