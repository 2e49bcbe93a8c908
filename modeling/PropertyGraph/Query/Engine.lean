import PropertyGraph.Query.Projection
import PropertyGraph.Query.Signature
import PropertyGraph.Traversal
import PropertyGraph.Value.Conversion

namespace PropertyGraph

namespace Query

def orFault {α : Type} : Except QueryFault α → Except Error α
  | .ok a => .ok a
  | .error fault => .error (.badQuery fault)

def addHop (t : Traversal) : Source → Except QueryFault Traversal
  | .name text => .ok (t.via text)
  | .hop name filter limit => do
    let filter ← filter.mapM Filter.compile
    return (t.via name).constrain (filter.map (fun f v => f.accepts v)) limit
  | .seed type _ _ => .error (.earlySeed type)

def traversal (hops : List Source) : Except QueryFault Traversal := hops.foldlM addHop .start

/-- The ids of the vertices of a type, as their records have them, that meet a condition. -/
def instances (s : Store) (type : String) (filter : Option Filter) : List VertexId :=
  let ids := ((s.idsOf (some type)).filterMap s.vertex?).map Vertex.id
  ids.filter (fun id => filter.all (fun f => (s.vertex? id).any (fun v => f.accepts v)))

/-- The ids that a query starts from. -/
def seeds (s : Store) (registered : String → Bool) : Source → Except Error (List VertexId)
  | .name id => if s.hasVertex id then .ok [id] else .error (.missingSeed id)
  | .seed type filter limit => do
    if !registered type then throw (.unregisteredType type)
    let filter ← orFault (filter.mapM Filter.compile)
    return Selection.cut limit (instances s type filter)
  | .hop name _ _ => .error (.badQuery (.hopAsSeed name))

/-- Runs a query: its faults first, then its seed. -/
def run (s : Store) (registered : String → Bool) (q : Query) : Except Error (List Row) :=
  match q.sources.getLast? with
  | none => .error (.badQuery .noSeed)
  | some last => do
    let selection ← orFault q.select.compile
    let t ← orFault (traversal q.sources.dropLast)
    let start ← seeds s registered last
    return ((t.reach s start).filterMap s.vertex?).map (fun v => ⟨selection.project s v⟩)

end Query

/-- Runs a query only if its token is genuine. -/
def SignedQuery.run (secret : List UInt8) (s : Store) (registered : String → Bool)
    (q : SignedQuery) : Except Error (List Row) := do
  q.verify secret
  q.query.run s registered

end PropertyGraph
