import PropertyGraph.Graph.Event
import PropertyGraph.Value.Json

namespace PropertyGraph

open Document

namespace Vertex

def toJson (v : Vertex) : Json :=
  .object [("id", .string v.id), ("type", .string v.type), ("properties", v.properties.toJson)]

def ofDocument? (d : Document) : Option Vertex := do
  let fields ← d.fields? ["id", "type", "properties"]
  return ⟨← required? "id" string? fields, ← required? "type" string? fields,
    ← required? "properties" Properties.ofDocument? fields⟩

end Vertex

namespace Edge

def toJson (e : Edge) : Json :=
  .object [("origin", .string e.origin), ("target", .string e.target), ("type", .string e.type)]

def ofDocument? (d : Document) : Option Edge := do
  let fields ← d.fields? ["origin", "target", "type"]
  return ⟨← required? "origin" string? fields, ← required? "target" string? fields,
    ← required? "type" string? fields⟩

end Edge

namespace Event

def Kind.fields : Kind → List String
  | createNode => ["vertex"]
  | updateNode => ["previous", "current"]
  | deleteNode => ["vertex", "edges"]
  | makeEdge => ["edge"]
  | deleteEdge => ["edge"]

def toJson (event : Event) : Json :=
  let fields := match event with
    | createNode v => [("vertex", v.toJson)]
    | updateNode previous current => [("previous", previous.toJson), ("current", current.toJson)]
    | deleteNode v edges => [("vertex", v.toJson), ("edges", .array (edges.map Edge.toJson))]
    | makeEdge e => [("edge", e.toJson)]
    | deleteEdge e => [("edge", e.toJson)]
  .object (("kind", .string event.kind.name) :: fields)

/-- The kind of a written event and its other fields. As an array the kind comes first. -/
def tagged? : Document → Option (Kind × List (String × Document))
  | .object members => do
    let kind ← (known? ["kind"] members).bind (required? "kind" string?)
    let kind ← Kind.ofName? kind
    return (kind, ← known? kind.fields members)
  | .array (.string name :: rest) => do
    let kind ← Kind.ofName? name
    return (kind, ← fields? kind.fields (.array rest))
  | _ => none

def ofDocument? (d : Document) : Option Event := do
  if !d.readable then none
  let (kind, fields) ← tagged? d
  match kind with
  | .createNode => return createNode (← required? "vertex" Vertex.ofDocument? fields)
  | .updateNode =>
    return updateNode (← required? "previous" Vertex.ofDocument? fields)
      (← required? "current" Vertex.ofDocument? fields)
  | .deleteNode =>
    return deleteNode (← required? "vertex" Vertex.ofDocument? fields)
      (← required? "edges" (list? Edge.ofDocument?) fields)
  | .makeEdge => return makeEdge (← required? "edge" Edge.ofDocument? fields)
  | .deleteEdge => return deleteEdge (← required? "edge" Edge.ofDocument? fields)

def parse? (text : String) : Option Event := (Document.parse? text).bind ofDocument?

end Event

end PropertyGraph
