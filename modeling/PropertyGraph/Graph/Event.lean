import PropertyGraph.Graph.Edge

namespace PropertyGraph

/-- One change of a store, with enough of what was there before to invert it. -/
inductive Event where
  | createNode (vertex : Vertex)
  | updateNode (previous current : Vertex)
  | deleteNode (vertex : Vertex) (edges : List Edge)
  | makeEdge (edge : Edge)
  | deleteEdge (edge : Edge)

namespace Event

inductive Kind where
  | createNode
  | updateNode
  | deleteNode
  | makeEdge
  | deleteEdge
deriving DecidableEq

def Kind.name : Kind → String
  | createNode => "create-node"
  | updateNode => "update-node"
  | deleteNode => "delete-node"
  | makeEdge => "make-edge"
  | deleteEdge => "delete-edge"

def Kind.all : List Kind := [createNode, updateNode, deleteNode, makeEdge, deleteEdge]

def Kind.ofName? (name : String) : Option Kind := Kind.all.find? (fun k => k.name = name)

def kind : Event → Kind
  | createNode _ => .createNode
  | updateNode _ _ => .updateNode
  | deleteNode _ _ => .deleteNode
  | makeEdge _ => .makeEdge
  | deleteEdge _ => .deleteEdge

/-- The events that undo this one, in the order of their application. A vertex comes back
before its edges. -/
def inverse : Event → List Event
  | createNode v => [deleteNode v []]
  | updateNode previous current => [updateNode current previous]
  | deleteNode v edges => createNode v :: edges.map makeEdge
  | makeEdge e => [deleteEdge e]
  | deleteEdge e => [makeEdge e]

def edge? : Event → Option Edge
  | makeEdge e => some e
  | deleteEdge e => some e
  | _ => none

end Event

end PropertyGraph
