import PropertyGraph.Double.Basic
import PropertyGraph.SortedEntries

namespace PropertyGraph

/-- A property value. A map lists its entries by ascending key, so equal maps have equal
lists. -/
inductive Value where
  | null
  | bool (b : Bool)
  | int (i : Int64)
  | double (x : Double)
  | string (s : String)
  | list (items : List Value)
  | map (entries : List (String × Value))

/-- The properties of a vertex, by ascending key. -/
abbrev Properties := List (String × Value)

namespace Value

instance : Inhabited Value := ⟨null⟩

def typeName : Value → String
  | null => "null"
  | bool _ => "boolean"
  | int _ => "number"
  | double _ => "number"
  | string _ => "string"
  | list _ => "array"
  | map _ => "object"

/-- The integer closest to a whole number within the 64-bit range. -/
def clampInt64 (i : Int) : Int64 :=
  if i < -0x8000000000000000 then Int64.minValue
  else if 0x7fffffffffffffff < i then Int64.maxValue
  else Int64.ofInt i

/-- A number without fractional part as an integer; one outside the 64-bit range goes to the
nearest end of it. -/
def int? : Value → Option Int64
  | int i => some i
  | double x => x.whole?.map clampInt64
  | _ => none

def double? : Value → Option Double
  | double x => some x
  | int i => some (Double.ofInt i.toInt)
  | _ => none

def string? : Value → Option String
  | string s => some s
  | _ => none

def bool? : Value → Option Bool
  | bool b => some b
  | _ => none

def list? : Value → Option (List Value)
  | list items => some items
  | _ => none

def map? : Value → Option Properties
  | map entries => some entries
  | _ => none

def ofPairs (pairs : List (String × Value)) : Value := map (SortedEntries.ofList pairs)

def ofOption {α : Type} (f : α → Value) : Option α → Value
  | none => null
  | some a => f a

end Value

end PropertyGraph
