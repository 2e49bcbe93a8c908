import PropertyGraph.Model.Connection
import PropertyGraph.OrderedMap
import PropertyGraph.Value.Basic

namespace PropertyGraph

/-- A member that is computed anew on every access. -/
inductive Derived where
  | isSet (connection : String)
  | count (connection : String)
  /-- A declared property; null if it is absent. -/
  | property (name : String)
  | via (name : String)
  | constant (value : Value)

structure Model where
  type : String
  properties : List String
  connections : OrderedMap String Connection
  derived : OrderedMap String Derived

namespace Model

def ofType (type : String) : Model := ⟨type, [], .empty, .empty⟩

/-- Declares a property. One that is declared already keeps its place. -/
def property (m : Model) (name : String) : Model :=
  if m.properties.contains name then m
  else ⟨m.type, m.properties ++ [name], m.connections, m.derived⟩

/-- Declares a connection under a name, which becomes its own. -/
def connection (m : Model) (name : String) (c : Connection) : Model :=
  ⟨m.type, m.properties,
    m.connections.insert name ⟨name, c.isCollection, c.isMutual, c.reverse⟩, m.derived⟩

def derive (m : Model) (name : String) (d : Derived) : Model :=
  ⟨m.type, m.properties, m.connections, m.derived.insert name d⟩

/-- Whether instances may read a property: one that is declared, or their identity. -/
def hasProperty (m : Model) (name : String) : Bool :=
  reservedKeys.contains name || m.properties.contains name

def single? (m : Model) (name : String) : Option Connection :=
  (m.connections.get? name).filter (fun c => !c.isCollection)

def collection? (m : Model) (name : String) : Option Connection :=
  (m.connections.get? name).filter (fun c => c.isCollection)

end Model

end PropertyGraph
