import PropertyGraph.Graph.Json
import PropertyGraph.Store.Snapshot

namespace PropertyGraph

open Document

def OrderedMap.toJson {β : Type} (f : β → Json) (m : OrderedMap String β) : Json :=
  .object (m.entries.map (fun e => (e.1, f e.2)))

def OrderedSet.toJson (s : OrderedSet String) : Json := .array (s.elems.map .string)

def OrderedSet.ofDocument? (d : Document) : Option (OrderedSet String) :=
  (d.list? string?).map OrderedSet.ofList

namespace Adjacency

def toJson (a : Adjacency) : Json := OrderedMap.toJson (fun types => .array (types.map .string)) a

def ofDocument? (d : Document) : Option Adjacency := d.map? (list? string?)

end Adjacency

namespace Snapshot

def toJson (s : Snapshot) : Json :=
  .object [("vertices", s.vertices.toJson Vertex.toJson),
    ("edges_from", s.outgoing.toJson Adjacency.toJson),
    ("edges_to", s.incoming.toJson Adjacency.toJson),
    ("type_index", s.typeIndex.toJson OrderedSet.toJson)]

def ofDocument? (d : Document) : Option Snapshot := do
  let fields ← d.fields? ["vertices", "edges_from", "edges_to", "type_index"]
  return ⟨← required? "vertices" (map? Vertex.ofDocument?) fields,
    ← required? "edges_from" (map? Adjacency.ofDocument?) fields,
    ← required? "edges_to" (map? Adjacency.ofDocument?) fields,
    ← required? "type_index" (map? OrderedSet.ofDocument?) fields⟩

def text (s : Snapshot) : String := s.toJson.text

def parse? (text : String) : Option Snapshot := (Document.parse? text).bind ofDocument?

end Snapshot

end PropertyGraph
