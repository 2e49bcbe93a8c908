import PropertyGraph.Graph.Edge
import PropertyGraph.Json.Printer
import PropertyGraph.Json.Record

namespace PropertyGraph

open Document

/-- How a named relation of a model lies on edges. The name is also the type of its edges. -/
structure Connection where
  name : String
  isCollection : Bool
  isMutual : Bool
  reverse : Option String
deriving DecidableEq

namespace Connection

/-- The type of the edges back, if there are any. A mutual connection has its own type both
ways. -/
def mirror (c : Connection) : Option String := if c.isMutual then some c.name else c.reverse

/-- The edges from an owner to a target: the edge of the connection, then the edge back. -/
def edges (c : Connection) (owner target : VertexId) : List Edge :=
  let edge : Edge := ⟨owner, target, c.name⟩
  edge :: (c.mirror.map edge.mirrored).toList

def toJson (c : Connection) : Json :=
  .object [("name", .string c.name), ("collection", .bool c.isCollection),
    ("mutual", .bool c.isMutual), ("reverse", .ofOption .string c.reverse)]

def ofDocument? (d : Document) : Option Connection := do
  let fields ← d.fields? ["name", "collection", "mutual", "reverse"]
  return ⟨← orDefault? "name" "" string? fields, ← orDefault? "collection" false bool? fields,
    ← orDefault? "mutual" false bool? fields, ← orAbsent? "reverse" string? fields⟩

def parse? (text : String) : Option Connection := (Document.parse? text).bind ofDocument?

end Connection

end PropertyGraph
