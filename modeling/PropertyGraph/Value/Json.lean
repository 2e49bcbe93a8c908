import PropertyGraph.Json.Printer
import PropertyGraph.Json.Record
import PropertyGraph.Value.Basic

namespace PropertyGraph.Value

mutual

/-- Numbers that JSON cannot spell become null. -/
def toJson : Value → Json
  | null => .null
  | bool b => .bool b
  | int i => .integer i.toInt
  | double x => .ofDouble x
  | string s => .string s
  | list items => .array (itemsToJson items)
  | map entries => .object (entriesToJson entries)

def itemsToJson : List Value → List Json
  | [] => []
  | item :: rest => item.toJson :: itemsToJson rest

def entriesToJson : List (String × Value) → List (String × Json)
  | [] => []
  | (key, value) :: rest => (key, value.toJson) :: entriesToJson rest

end

/-- An integer beyond the signed 64-bit range is held as a double. -/
def ofInteger (i : Int) : Value :=
  if -0x8000000000000000 ≤ i ∧ i < 0x8000000000000000 then int (Int64.ofInt i) else double (Double.ofInt i)

mutual

def ofJson : Json → Value
  | .null => null
  | .bool b => bool b
  | .integer i => ofInteger i
  | .double x => double x
  | .string s => string s
  | .array items => list (itemsOfJson items)
  | .object members => map (entriesOfJson members)

def itemsOfJson : List Json → List Value
  | [] => []
  | item :: rest => ofJson item :: itemsOfJson rest

def entriesOfJson : List (String × Json) → List (String × Value)
  | [] => []
  | (key, value) :: rest => (key, ofJson value) :: entriesOfJson rest

end

def ofDocument? (d : Document) : Option Value := d.json?.map ofJson

def parse? (text : String) : Option Value := (Document.parse? text).bind ofDocument?

def text (v : Value) : String := v.toJson.canonical

end PropertyGraph.Value

namespace PropertyGraph.Properties

def toJson (ps : Properties) : Json := (Value.map ps).toJson

def ofDocument? (d : Document) : Option Properties := (Value.ofDocument? d).bind Value.map?

def parse? (text : String) : Option Properties := (Document.parse? text).bind ofDocument?

end PropertyGraph.Properties
