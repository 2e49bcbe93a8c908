import PropertyGraph.Error
import PropertyGraph.Graph.Event
import PropertyGraph.OrderedSet

namespace PropertyGraph

/-- The neighbours on one side of a vertex, each with the types of the edges between. -/
abbrev Adjacency := OrderedMap VertexId (List String)

namespace Adjacency

def types (a : Adjacency) (neighbor : VertexId) : List String := (a.get? neighbor).getD []

def link (a : Adjacency) (neighbor : VertexId) (type : String) : Adjacency :=
  a.insert neighbor (a.types neighbor ++ [type])

/-- Writes the types of the edges to a neighbour. A neighbour leaves with its last edge type. -/
def put (a : Adjacency) (neighbor : VertexId) (types : List String) : Adjacency :=
  if types = [] then a.erase neighbor else a.insert neighbor types

/-- Takes an edge type away where it stands first. -/
def unlink (a : Adjacency) (neighbor : VertexId) (type : String) : Adjacency :=
  a.put neighbor ((a.types neighbor).erase type)

/-- Takes an edge type away wherever it stands. -/
def discard (a : Adjacency) (neighbor : VertexId) (type : String) : Adjacency :=
  a.put neighbor ((a.types neighbor).filter (fun t => t ≠ type))

def edgeCount (a : Adjacency) : Nat := a.values.flatten.length

end Adjacency

/-- A directed multigraph with typed edges: the vertex records, each edge from both of its
ends, and the ids of the vertices of each type. -/
structure Store where
  vertices : OrderedMap VertexId Vertex
  outgoing : OrderedMap VertexId Adjacency
  incoming : OrderedMap VertexId Adjacency
  typeIndex : OrderedMap String (OrderedSet VertexId)

namespace Store

def empty : Store := ⟨.empty, .empty, .empty, .empty⟩

instance : Inhabited Store := ⟨empty⟩

def vertex? (s : Store) (id : VertexId) : Option Vertex := s.vertices.get? id

def hasVertex (s : Store) (id : VertexId) : Bool := s.vertices.contains id

def vertexType? (s : Store) (id : VertexId) : Option String := (s.vertex? id).map Vertex.type

def property? (s : Store) (id : VertexId) (key : String) : Option Value :=
  (s.vertex? id).bind (fun v => v.get? key)

def outgoingOf (s : Store) (id : VertexId) : Adjacency := (s.outgoing.get? id).getD .empty

def incomingOf (s : Store) (id : VertexId) : Adjacency := (s.incoming.get? id).getD .empty

/-- The ids in the bucket of a type, or all ids. -/
def idsOf (s : Store) : Option String → List VertexId
  | none => s.vertices.keys
  | some type => ((s.typeIndex.get? type).getD .empty).elems

def hasEdge (s : Store) (e : Edge) : Bool :=
  ((s.outgoingOf e.origin).types e.target).contains e.type

def edge? (s : Store) (e : Edge) : Option Edge := if s.hasEdge e then some e else none

/-- The edges that leave a vertex, one for each neighbour and type. -/
def outEdges (s : Store) (id : VertexId) : List Edge :=
  (s.outgoingOf id).entries.flatMap (fun n => n.2.map (fun t => ⟨id, n.1, t⟩))

/-- The edges that arrive at a vertex, one for each neighbour and type. -/
def inEdges (s : Store) (id : VertexId) : List Edge :=
  (s.incomingOf id).entries.flatMap (fun n => n.2.map (fun t => ⟨n.1, id, t⟩))

def interEdges (s : Store) (origin target : VertexId) : List Edge :=
  ((s.outgoingOf origin).types target).map (fun t => ⟨origin, target, t⟩)

/-- The arriving edges, then the leaving ones. A loop is listed twice. -/
def allEdges (s : Store) (id : VertexId) : List Edge := s.inEdges id ++ s.outEdges id

def edges (s : Store) (id : VertexId) : Direction → List Edge
  | .outgoing => s.outEdges id
  | .incoming => s.inEdges id
  | .both => s.allEdges id

def vertexCount (s : Store) : Nat := s.vertices.size

def edgeCount (s : Store) : Nat := (s.outgoing.values.flatMap OrderedMap.values).flatten.length

def types (s : Store) : List String :=
  (s.typeIndex.entries.filter (fun b => !b.2.isEmpty)).map Prod.fst

end Store

end PropertyGraph
