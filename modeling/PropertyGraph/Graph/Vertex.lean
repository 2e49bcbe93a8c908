import PropertyGraph.Value.Basic

namespace PropertyGraph

abbrev VertexId := String

/-- The names that read the identity of a vertex. They are never stored as properties. -/
def reservedKeys : List String := ["id", "type"]

structure Vertex where
  id : VertexId
  type : String
  properties : Properties

namespace Vertex

/-- The value of a property; `id` and `type` read the identity. -/
def get? (v : Vertex) (key : String) : Option Value :=
  if key = "id" then some (.string v.id)
  else if key = "type" then some (.string v.type)
  else Entries.get? key v.properties

end Vertex

end PropertyGraph
