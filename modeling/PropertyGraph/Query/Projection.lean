import PropertyGraph.Filter.Basic
import PropertyGraph.Query.Basic
import PropertyGraph.Store.Basic

namespace PropertyGraph.Selection

/-- A limit of zero is no limit. -/
def cut {α : Type} (limit : Option Nat) (items : List α) : List α :=
  match limit with
  | none => items
  | some 0 => items
  | some n => items.take n

/-- The selection with its filters read. Inner ones come first. -/
def compile : Selection Value → Except QueryFault (Selection Filter)
  | properties names => .ok (properties names)
  | connect name inner filter limit rest => do
    let inner ← inner.compile
    let filter ← filter.mapM Filter.compile
    let rest ← rest.compile
    return connect name inner filter limit rest

/-- The vertices that a connection leads to from a vertex, in the order of the adjacency. -/
def neighbours (s : Store) (name : String) (filter : Option Filter) (limit : Option Nat)
    (v : Vertex) : List Vertex :=
  let ends := ((s.outEdges v.id).filter (fun e => e.type = name)).map Edge.target
  let found := ends.filterMap s.vertex?
  cut limit (found.filter (fun t => filter.all (fun f => f.accepts t)))

/-- What is selected from a vertex. A property that is absent comes out as null; a connection
comes out as the list of what is selected from its ends, and replaces a property of its name. -/
def project (s : Store) : Selection Filter → Vertex → Properties
  | properties names, v =>
    SortedEntries.ofList (names.map (fun p => (p, (v.get? p).getD .null)))
  | connect name inner filter limit rest, v =>
    let rows := (neighbours s name filter limit v).map (fun t => Value.map (inner.project s t))
    SortedEntries.insert name (.list rows) (rest.project s v)

end PropertyGraph.Selection
