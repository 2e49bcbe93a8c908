import PropertyGraph.Store.Basic
import PropertyGraph.Value.Order

namespace PropertyGraph

/-- A copy of the four maps of a store. One that comes from elsewhere need not fit together. -/
structure Snapshot where
  vertices : OrderedMap VertexId Vertex
  outgoing : OrderedMap VertexId Adjacency
  incoming : OrderedMap VertexId Adjacency
  typeIndex : OrderedMap String (OrderedSet VertexId)

/-- Maps with the same keys, whatever their order, and matching values. -/
def OrderedMap.sameAs {κ β : Type} [DecidableEq κ] (eq : β → β → Bool) (m n : OrderedMap κ β) :
    Bool :=
  m.size == n.size && m.entries.all (fun e => (n.get? e.1).any (eq e.2))

def OrderedSet.sameAs {α : Type} [DecidableEq α] (s t : OrderedSet α) : Bool :=
  s.elems.length == t.elems.length && s.elems.all t.contains

def Vertex.sameAs (v w : Vertex) : Bool :=
  v.id == w.id && v.type == w.type && Value.equalEntries v.properties w.properties

namespace Snapshot

def vertexCount (s : Snapshot) : Nat := s.vertices.size

def edgeCount (s : Snapshot) : Nat := (s.outgoing.values.flatMap OrderedMap.values).flatten.length

/-- Equality that ignores the order of keys and of ids. The order of the types between two
vertices counts. -/
def sameAs (s t : Snapshot) : Bool :=
  let sameSide := OrderedMap.sameAs (OrderedMap.sameAs (fun (a b : List String) => a == b))
  s.vertices.sameAs Vertex.sameAs t.vertices
    && sameSide s.outgoing t.outgoing
    && sameSide s.incoming t.incoming
    && s.typeIndex.sameAs OrderedSet.sameAs t.typeIndex

/-- Whether the other side lists the same types, in any order, for the same two vertices. -/
def mirrored (other : OrderedMap VertexId Adjacency) (id neighbor : VertexId)
    (types : List String) : Bool :=
  match (other.get? neighbor).bind (fun a => a.get? id) with
  | none => false
  | some back => back.length == types.length && types.all back.contains

def pairFault? (vertices : OrderedMap VertexId Vertex) (other : OrderedMap VertexId Adjacency)
    (side : Side) (id neighbor : VertexId) (types : List String) : Option SnapshotFault :=
  if !vertices.contains neighbor then some (.unknownNeighbor side id neighbor)
  else if types = [] ∨ ¬ types.Nodup then some (.badTypes side id neighbor)
  else if !mirrored other id neighbor types then some (.notMirrored side id neighbor)
  else none

def sideFault? (vertices : OrderedMap VertexId Vertex) (this other : OrderedMap VertexId Adjacency)
    (side : Side) : Option SnapshotFault :=
  this.entries.findSome? (fun e =>
    if !vertices.contains e.1 then some (.unknownOwner side e.1)
    else e.2.entries.findSome? (fun n => pairFault? vertices other side e.1 n.1 n.2))

def bucketFault? (s : Snapshot) : Option SnapshotFault :=
  s.typeIndex.entries.findSome? (fun b => b.2.elems.findSome? (fun id =>
    match s.vertices.get? id with
    | none => some (.unknownMember b.1 id)
    | some v => if v.type = b.1 then none else some (.misfiled id v.type b.1)))

def indexFault? (s : Snapshot) : Option SnapshotFault :=
  s.vertices.entries.findSome? (fun e =>
    if (s.typeIndex.get? e.2.type).any (fun bucket => bucket.contains e.1) then none
    else some (.notIndexed e.1 e.2.type))

/-- The first fault: of the outgoing side, of the incoming side, of the buckets, of the index. -/
def fault? (s : Snapshot) : Option SnapshotFault :=
  sideFault? s.vertices s.outgoing s.incoming .outgoing
    <|> sideFault? s.vertices s.incoming s.outgoing .incoming
    <|> s.bucketFault?
    <|> s.indexFault?

/-- Adds an empty adjacency for every id that has none. -/
def completed (ids : List VertexId) (side : OrderedMap VertexId Adjacency) :
    OrderedMap VertexId Adjacency :=
  ids.foldl (fun side id => if side.contains id then side else side.insert id .empty) side

def restore (s : Snapshot) : Except Error Store :=
  match s.fault? with
  | some fault => .error (.badSnapshot fault)
  | none => .ok ⟨s.vertices, completed s.vertices.keys s.outgoing,
      completed s.vertices.keys s.incoming, s.typeIndex⟩

end Snapshot

def Store.snapshot (s : Store) : Snapshot := ⟨s.vertices, s.outgoing, s.incoming, s.typeIndex⟩

/-- Keeps the snapshot that was saved last. -/
structure Archive where
  saved : Option Snapshot

namespace Archive

def empty : Archive := ⟨none⟩

instance : Inhabited Archive := ⟨empty⟩

def save (_ : Archive) (s : Snapshot) : Archive := ⟨some s⟩

def commit (a : Archive) (s : Store) : Archive := a.save s.snapshot

/-- A fresh store with what was saved, or an empty one. -/
def reopen (a : Archive) : Except Error Store :=
  match a.saved with
  | none => .ok .empty
  | some s => s.restore

end Archive

end PropertyGraph
