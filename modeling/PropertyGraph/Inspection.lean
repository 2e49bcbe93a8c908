import PropertyGraph.Text.Quoted
import PropertyGraph.Traversal
import PropertyGraph.Workspace.Instance

namespace PropertyGraph

open Text

def Store.describe (s : Store) : String :=
  labelled "Graph" [("vertices", toString s.vertexCount), ("edges", toString s.edgeCount)]

namespace Connection

def describe (c : Connection) : String :=
  labelled "ConnectionDescriptor" [("name", quoted c.name), ("collection", flag c.isCollection),
    ("mutual", flag c.isMutual), ("reverse", Text.optional quoted c.reverse)]

end Connection

namespace Model

def describe (m : Model) : String :=
  let connections := m.connections.entries.map (fun e => quoted e.1 ++ ": " ++ e.2.describe)
  labelled "ModelSchema" [("type_name", quoted m.type),
    ("properties", bracketed (m.properties.map quoted)),
    ("connections", "\x7b" ++ ", ".intercalate connections ++ "\x7d"),
    ("derived", bracketed (m.derived.keys.map quoted))]

end Model

namespace Workspace

/-- A registry shows its graph and its types, in ascending order. -/
def describeRegistry (w : Workspace) (r : RegistryId) : String :=
  let types := SortedEntries.ofList (w.registry r).models.entries
  labelled "Models" [("graph", (w.store (w.graphOf r)).describe),
    ("types", bracketed (types.map (fun t => quoted t.1)))]

end Workspace

def Instance.describe (i : Instance) : String :=
  labelled "Instance" [("type", quoted i.model.type), ("id", "VertexId(" ++ quoted i.id ++ ")")]

def Hop.describe (h : Hop) : String :=
  labelled "Step" [("name", quoted h.name), ("filtered", flag h.filter.isSome),
    ("limit", Text.optional (fun n => toString n) h.limit)]

/-- A traversal shows what its results are taken from, and its hops. -/
def Traversal.describe (t : Traversal) (projection : String) : String :=
  labelled "Traversal" [("projection", projection),
    ("steps", bracketed (t.hops.map Hop.describe))]

def Seq.description : String := "Seq \x7b .. \x7d"

end PropertyGraph
