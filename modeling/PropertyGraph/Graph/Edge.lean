import PropertyGraph.Graph.Vertex

namespace PropertyGraph

/-- A directed edge, which is nothing but its ends and its type. -/
structure Edge where
  origin : VertexId
  target : VertexId
  type : String
deriving DecidableEq

/-- The edge back, under the given type. -/
def Edge.mirrored (e : Edge) (type : String) : Edge := ⟨e.target, e.origin, type⟩

inductive Direction where
  | outgoing
  | incoming
  | both
deriving DecidableEq

end PropertyGraph
