import PropertyGraph.Filter.Basic
import PropertyGraph.Traversal
import PropertyGraph.Workspace.Connection

namespace PropertyGraph

inductive View where
  | record (g : GraphId)
  /-- As instances of their registered types; others are left out. -/
  | projected (r : RegistryId)
  /-- As instances of one model, whether they are there or not. -/
  | typed (r : RegistryId) (m : Model)

inductive Item where
  | edge (e : Edge)
  | record (v : Vertex)
  | viewed (i : Instance)

namespace View

def graph (w : Workspace) : View → GraphId
  | record g => g
  | projected r => w.graphOf r
  | typed r _ => w.graphOf r

def show? (w : Workspace) (view : View) (id : VertexId) : Option Item :=
  match view with
  | record g => ((w.store g).vertex? id).map .record
  | projected r => (w.instanceOfId? r id).map .viewed
  | typed r m => some (.viewed ⟨r, id, m⟩)

end View

def Workspace.ids (w : Workspace) (g : GraphId) (type : Option String) : Seq Workspace VertexId :=
  .ofList ((w.store g).idsOf type)

/-- Keeps the ids of vertices that are there when they are pulled, as their records have them. -/
def present (g : GraphId) (ids : Seq Workspace VertexId) : Seq Workspace VertexId :=
  ids.filterMap (fun w id => ((w.store g).vertex? id).map Vertex.id)

def accepted (g : GraphId) (filter : Filter) (ids : Seq Workspace VertexId) :
    Seq Workspace VertexId :=
  ids.filter (fun w id => ((w.store g).vertex? id).any (fun v => filter.accepts v))

/-- The ids of the instances of a model that meet a condition. -/
def Workspace.find (w : Workspace) (r : RegistryId) (m : Model) (filter : Option Filter) :
    Seq Workspace VertexId :=
  let g := w.graphOf r
  let all := present g (w.ids g (some m.type))
  match filter with
  | none => all
  | some f => accepted g f all

/-- A sequence that has been opened. Edges are copied when they are asked for; vertices are
looked up when they are pulled. -/
inductive Cursor where
  | edges (s : Seq Workspace Edge)
  | vertices (view : View) (s : Seq Workspace VertexId)

namespace Cursor

/-- The next vertex that can be shown. No vertex is driven for more than `steps` steps, and the
fuel bounds the vertices that cannot be shown. -/
def nextShown (w : Workspace) (view : View) (steps : Nat) : Nat → Seq Workspace VertexId →
    Option Item × Seq Workspace VertexId
  | 0, s => (none, s)
  | fuel + 1, s =>
    match s.next w steps with
    | .ended rest => (none, rest)
    | .outOfFuel rest => (none, rest)
    | .item id rest =>
      match view.show? w id with
      | some item => (some item, rest)
      | none => nextShown w view steps fuel rest

def takeShown (w : Workspace) (view : View) (steps : Nat) : Nat → Seq Workspace VertexId →
    List Item × Seq Workspace VertexId
  | 0, s => ([], s)
  | count + 1, s =>
    match nextShown w view steps steps s with
    | (none, rest) => ([], rest)
    | (some item, rest) =>
      let (items, rest) := takeShown w view steps count rest
      (item :: items, rest)

/-- The next items, at most `count` of them, and the cursor behind them. For one item the
sequence is driven for no more than `steps` steps. -/
def pullWithin (w : Workspace) (steps count : Nat) : Cursor → List Item × Cursor
  | edges s =>
    let (items, rest) := s.take w steps count
    (items.map .edge, edges rest)
  | vertices view s =>
    let (items, rest) := takeShown w view steps count s
    (items, vertices view rest)

/-- More steps than a program can ever take. -/
def patience : Nat := 0x4000000000000000

def pull (w : Workspace) (count : Nat) (c : Cursor) : List Item × Cursor :=
  c.pullWithin w patience count

def drain (w : Workspace) (c : Cursor) : List Item := (c.pull w patience).1

def ofEdges (es : List Edge) : Cursor := edges (.ofList es)

def ofVertices (w : Workspace) (g : GraphId) (type : Option String) : Cursor :=
  vertices (.record g) (w.ids g type)

def ofModel (w : Workspace) (r : RegistryId) (m : Model) (filter : Option Filter) : Cursor :=
  vertices (.typed r m) (w.find r m filter)

def ofMembers (w : Workspace) (i : Instance) (c : Connection) : Cursor :=
  vertices (.projected i.registry) (.ofList (i.targets w c))

/-- What a traversal reaches from its seeds. -/
def ofTraversal (w : Workspace) (view : View) (t : Traversal) (seeds : Seq Workspace VertexId) :
    Cursor :=
  let g := view.graph w
  vertices view (t.startingWith (fun w => w.store g) seeds)

end Cursor

end PropertyGraph
