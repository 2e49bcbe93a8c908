import PropertyGraph.Error
import PropertyGraph.Value.Basic

namespace PropertyGraph

class ToValue (α : Type) where
  toValue : α → Value

export ToValue (toValue)

instance : ToValue Value := ⟨id⟩

instance : ToValue Bool := ⟨.bool⟩

instance : ToValue Int32 := ⟨fun i => .int i.toInt64⟩

instance : ToValue Int64 := ⟨.int⟩

instance : ToValue Double := ⟨.double⟩

instance : ToValue String := ⟨.string⟩

instance {α : Type} [ToValue α] : ToValue (List α) := ⟨fun items => .list (items.map toValue)⟩

instance {α : Type} [ToValue α] : ToValue (Option α) := ⟨Value.ofOption toValue⟩

/-- One projected vertex: its properties and the rows of its connections, by ascending key. -/
structure Row where
  values : Properties

namespace Row

def toValue (r : Row) : Value := .map r.values

end Row

instance : ToValue Row := ⟨Row.toValue⟩

class OfValue (α : Type) where
  ofValue : Value → Except Error α

export OfValue (ofValue)

namespace OfValue

/-- What was read, or else an error that tells the expected type and the one found. -/
def orMismatch {α : Type} (expected : String) (v : Value) : Option α → Except Error α
  | some a => .ok a
  | none => .error (.wrongType expected v.typeName)

end OfValue

instance : OfValue Value := ⟨.ok⟩

instance : OfValue String := ⟨fun v => OfValue.orMismatch "string" v v.string?⟩

instance : OfValue Int64 := ⟨fun v => OfValue.orMismatch "integer" v v.int?⟩

instance : OfValue Double := ⟨fun v => OfValue.orMismatch "number" v v.double?⟩

instance : OfValue Bool := ⟨fun v => OfValue.orMismatch "boolean" v v.bool?⟩

instance : OfValue Row := ⟨fun v => OfValue.orMismatch "object" v (v.map?.map Row.mk)⟩

instance {α : Type} [OfValue α] : OfValue (List α) :=
  ⟨fun v => do (← OfValue.orMismatch "array" v v.list?).mapM ofValue⟩

instance {α : Type} [OfValue α] : OfValue (Option α) :=
  ⟨fun v => match v with
    | .null => .ok none
    | v => (ofValue v).map some⟩

def Row.get {α : Type} [OfValue α] (r : Row) (key : String) : Except Error α :=
  match Entries.get? key r.values with
  | none => .error (.unknownField "result row" key)
  | some v => ofValue v

end PropertyGraph
