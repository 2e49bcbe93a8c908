import PropertyGraph.Double.Decimal
import PropertyGraph.SortedEntries

namespace PropertyGraph

/-- A JSON value. Integers and fractional numbers are different kinds of number. -/
inductive Json where
  | null
  | bool (b : Bool)
  | integer (i : Int)
  | double (x : Double)
  | string (s : String)
  | array (items : List Json)
  | object (members : List (String × Json))

namespace Json

instance : Inhabited Json := ⟨null⟩

/-- A finite number; JSON has no spelling for the others. -/
def ofDouble (x : Double) : Json := if x.isFinite then .double x else .null

def ofOption {α : Type} (f : α → Json) : Option α → Json
  | none => .null
  | some a => f a

mutual

/-- The same value with the members of every object by ascending key, the last counting of
those that share a key. -/
def sorted : Json → Json
  | .array items => .array (sortedItems items)
  | .object members => .object (SortedEntries.ofList (sortedMembers members))
  | other => other

def sortedItems : List Json → List Json
  | [] => []
  | item :: rest => item.sorted :: sortedItems rest

def sortedMembers : List (String × Json) → List (String × Json)
  | [] => []
  | (key, value) :: rest => (key, value.sorted) :: sortedMembers rest

end

end Json

end PropertyGraph
