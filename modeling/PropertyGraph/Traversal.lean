import PropertyGraph.Seq
import PropertyGraph.Store.Basic

namespace PropertyGraph

/-- One hop: from a vertex back along the edges of a type. Of the vertices that it reaches those
that pass the filter count, and of them no more than the limit. -/
structure Hop where
  name : String
  filter : Option (Vertex → Bool)
  limit : Option Nat

namespace Hop

def passes (h : Hop) (v : Vertex) : Bool := h.filter.all (fun keep => keep v)

def origins (s : Store) (h : Hop) (id : VertexId) : List VertexId :=
  ((s.inEdges id).filter (fun e => e.type = h.name)).map Edge.origin

/-- The id of the vertex found under an origin, if it is there and passes. -/
def arrival? (s : Store) (h : Hop) (origin : VertexId) : Option VertexId :=
  (s.vertex? origin).bind (fun v => if h.passes v then some v.id else none)

def cut {α : Type} (h : Hop) (items : List α) : List α :=
  match h.limit with
  | none => items
  | some n => items.take n

def reach (s : Store) (h : Hop) (id : VertexId) : List VertexId :=
  h.cut ((origins s h id).filterMap (arrival? s h))

end Hop

/-- Hops in the order of their declaration. They are taken from the last to the first, so a
chain reads from its result inwards. -/
structure Traversal where
  hops : List Hop

namespace Traversal

def start : Traversal := ⟨[]⟩

/-- Adds a hop without constraints. -/
def via (t : Traversal) (name : String) : Traversal := ⟨t.hops ++ [⟨name, none, none⟩]⟩

/-- Replaces the filter and the limit of the last hop. A limit of zero is no limit. Where there
is no hop, there is nothing to constrain. -/
def constrain (t : Traversal) (filter : Option (Vertex → Bool)) (limit : Option Nat) :
    Traversal :=
  match t.hops.getLast? with
  | none => t
  | some last => ⟨t.hops.dropLast ++ [⟨last.name, filter, limit.filter (fun n => 0 < n)⟩]⟩

def names (t : Traversal) : List String := t.hops.map Hop.name

/-- The list without the items that occurred before. -/
def firstOccurrences (ids : List VertexId) : List VertexId :=
  (OrderedSet.ofList ids).elems

/-- The ids that the traversal reaches from the seeds, each stage evaluated at once. -/
def reach (s : Store) (t : Traversal) (seeds : List VertexId) : List VertexId :=
  t.hops.foldr (fun h frontier => firstOccurrences (frontier.flatMap (h.reach s))) seeds

variable {ε : Type}

/-- The sequence of the vertices that a hop reaches. The edges are those at the moment when the
sequence is made; the vertices are looked up when they are pulled. -/
def hopSeq (look : ε → Store) (h : Hop) (e : ε) (id : VertexId) : Seq ε VertexId :=
  let reached := Seq.filterMap (fun e origin => h.arrival? (look e) origin)
    (Seq.ofList (h.origins (look e) id))
  match h.limit with
  | none => reached
  | some n => reached.limit n

/-- One stage: every id of the frontier is expanded when it is reached, and an id that came
before is dropped. -/
def stage (look : ε → Store) (h : Hop) (frontier : Seq ε VertexId) : Seq ε VertexId :=
  (Seq.flatten (hopSeq look h) frontier).uniqueBy id

/-- The lazy sequence of the ids that the traversal reaches. -/
def startingWith (look : ε → Store) (t : Traversal) (seeds : Seq ε VertexId) : Seq ε VertexId :=
  t.hops.foldr (stage look) seeds

end Traversal

end PropertyGraph
