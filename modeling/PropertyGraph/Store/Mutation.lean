import PropertyGraph.Store.Basic

namespace PropertyGraph

namespace Store

/-- Adds or replaces a vertex. The id joins the bucket of the type and leaves no other bucket.
Reserved keys are no properties and are dropped. -/
def setVertex (s : Store) (id : VertexId) (type : String) (properties : Properties) :
    Store × Event :=
  let current : Vertex := ⟨id, type, properties.filter (fun p => !reservedKeys.contains p.1)⟩
  let vertices := s.vertices.insert id current
  let typeIndex := s.typeIndex.insert type (((s.typeIndex.get? type).getD .empty).insert id)
  match s.vertex? id with
  | some previous => (⟨vertices, s.outgoing, s.incoming, typeIndex⟩, .updateNode previous current)
  | none =>
    (⟨vertices, s.outgoing.insert id .empty, s.incoming.insert id .empty, typeIndex⟩,
      .createNode current)

def setProperty (s : Store) (id : VertexId) (key : String) (value : Value) :
    Except Error (Store × Event) :=
  if reservedKeys.contains key then .error (.reservedKey key)
  else match s.vertex? id with
    | none => .error (.missingVertex id)
    | some previous =>
      let current : Vertex :=
        ⟨previous.id, previous.type, SortedEntries.insert key value previous.properties⟩
      .ok (⟨s.vertices.insert id current, s.outgoing, s.incoming, s.typeIndex⟩,
        .updateNode previous current)

/-- Writes an edge at both of its ends unless it is there, and tells whether it is new. -/
def link (s : Store) (e : Edge) : Store × Bool :=
  match s.outgoing.get? e.origin with
  | none => (s, false)
  | some leaving =>
    if (leaving.types e.target).contains e.type then (s, false)
    else (⟨s.vertices, s.outgoing.insert e.origin (leaving.link e.target e.type),
      s.incoming.insert e.target ((s.incomingOf e.target).link e.origin e.type), s.typeIndex⟩,
      true)

def unlink (s : Store) (e : Edge) : Store × Bool :=
  if s.hasEdge e then
    (⟨s.vertices, s.outgoing.modify e.origin (fun a => a.unlink e.target e.type),
      s.incoming.modify e.target (fun a => a.discard e.origin e.type), s.typeIndex⟩, true)
  else (s, false)

def unlinkAll (s : Store) (edges : List Edge) : Store := edges.foldl (fun s e => (s.unlink e).1) s

/-- Takes a vertex away together with its edges: those that leave it, then those that arrive. -/
def removeVertex (s : Store) (id : VertexId) : Except Error (Store × List Edge × Event) :=
  match s.vertex? id with
  | none => .error (.missingVertex id)
  | some v =>
    let leaving := s.outEdges id
    let cut := s.unlinkAll leaving
    -- The loops have gone with the leaving edges.
    let arriving := cut.inEdges id
    let bare := cut.unlinkAll arriving
    let removed := leaving ++ arriving
    .ok (⟨bare.vertices.erase id, bare.outgoing.erase id, bare.incoming.erase id,
      bare.typeIndex.modify v.type (fun bucket => bucket.erase id)⟩, removed, .deleteNode v removed)

def setEdge (s : Store) (e : Edge) : Except Error (Store × Bool) :=
  if !s.hasVertex e.origin then .error (.missingVertex e.origin)
  else if !s.hasVertex e.target then .error (.missingVertex e.target)
  else .ok (s.link e)

/-- Takes an edge away if it is there, and tells whether it was. -/
def removeEdge (s : Store) (e : Edge) : Store × Bool := s.unlink e

end Store

inductive Mutation where
  | setVertex (id : VertexId) (type : String) (properties : Properties)
  | setProperty (id : VertexId) (key : String) (value : Value)
  | removeVertex (id : VertexId)
  | setEdge (edge : Edge)
  | removeEdge (edge : Edge)

inductive Reply where
  | done
  | removed (edges : List Edge)
  | changed (b : Bool)
deriving DecidableEq

/-- The state after a mutation, its answer, and the event if something changed. -/
structure Outcome where
  store : Store
  reply : Reply
  event : Option Event

namespace Store

/-- Performs one mutation. A mutation that fails has no outcome, so the store stays. -/
def perform (s : Store) : Mutation → Except Error Outcome
  | .setVertex id type properties =>
    let (store, event) := s.setVertex id type properties
    .ok ⟨store, .done, some event⟩
  | .setProperty id key value =>
    (s.setProperty id key value).map (fun (store, event) => ⟨store, .done, some event⟩)
  | .removeVertex id =>
    (s.removeVertex id).map (fun (store, edges, event) => ⟨store, .removed edges, some event⟩)
  | .setEdge e =>
    (s.setEdge e).map (fun (store, isNew) =>
      ⟨store, .changed isNew, if isNew then some (.makeEdge e) else none⟩)
  | .removeEdge e =>
    let (store, found) := s.removeEdge e
    .ok ⟨store, .changed found, if found then some (.deleteEdge e) else none⟩

/-- The mutation that an event describes. A vertex that is already gone needs none. -/
def mutationOf? (s : Store) : Event → Option Mutation
  | .createNode v => some (.setVertex v.id v.type v.properties)
  | .updateNode _ v => some (.setVertex v.id v.type v.properties)
  | .deleteNode v _ => if s.hasVertex v.id then some (.removeVertex v.id) else none
  | .makeEdge e => some (.setEdge e)
  | .deleteEdge e => some (.removeEdge e)

def apply (s : Store) (event : Event) : Except Error Outcome :=
  match s.mutationOf? event with
  | none => .ok ⟨s, .done, none⟩
  | some m => s.perform m

end Store

end PropertyGraph
