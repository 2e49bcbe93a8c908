import PropertyGraph.Double.Basic
import PropertyGraph.Text.Hex

namespace PropertyGraph.Double

def canonicalNaN : UInt64 := 0x7ff8000000000000

/-- The encoding as 16 hexadecimal digits, the sign first. All NaNs are written alike. -/
def bitsText (x : Double) : String :=
  let bits := if x.isNaN then canonicalNaN else x.toBits
  let digits := Nat.toDigits 16 bits.toNat
  String.ofList (List.replicate (16 - digits.length) '0' ++ digits)

/-- The number whose encoding is given by up to 16 hexadecimal digits. -/
def ofBitsText? (text : String) : Option Double := do
  let digits ← text.toList.mapM Hex.value?
  if digits = [] ∨ 16 < digits.length then none
  else return ofBits (UInt64.ofNat (digits.foldl (fun n d => n * 16 + d) 0))

end PropertyGraph.Double
