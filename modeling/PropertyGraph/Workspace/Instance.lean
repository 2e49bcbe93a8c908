import PropertyGraph.Workspace.Basic

namespace PropertyGraph

/-- A view of one vertex through a model. It holds no data of its own. -/
structure Instance where
  registry : RegistryId
  id : VertexId
  model : Model

namespace Workspace

def graphOf (w : Workspace) (r : RegistryId) : GraphId := (w.registry r).graph

def model? (w : Workspace) (r : RegistryId) (type : String) : Option Model :=
  (w.registry r).models.get? type

def isRegistered (w : Workspace) (r : RegistryId) (type : String) : Bool :=
  (w.model? r type).isSome

def register (w : Workspace) (r : RegistryId) (m : Model) : Workspace :=
  let registry := w.registry r
  w.withRegistry r ⟨registry.graph, registry.models.insert m.type m, registry.strategy,
    registry.minted⟩

/-- The model of a type, which has to be registered. -/
def factory (w : Workspace) (r : RegistryId) (type : String) : Except Error Model :=
  match w.model? r type with
  | some m => .ok m
  | none => .error (.unregisteredType type)

/-- Whether a text has the form of an identifier of version 4. -/
def isUuid (id : VertexId) : Bool :=
  let isHex := fun (c : Char) => c.isDigit || ('a' ≤ c && c ≤ 'f')
  let parts := id.splitOn "-"
  parts.map String.length == [8, 4, 4, 4, 12] && parts.all (fun p => p.toList.all isHex)
    && parts[2]?.any (fun p => p.toList.head? == some '4')
    && parts[3]?.any (fun p => p.toList.head?.any ['8', '9', 'a', 'b'].contains)

/-- The next id of a registry: the first that the source of unique ids has, or the number that the
registry counts to. After the last number of 64 bits it counts from zero. -/
def mint (w : Workspace) (r : RegistryId) : Workspace × VertexId :=
  let registry := w.registry r
  match registry.strategy with
  | .uuid => (⟨w.graphs, w.sinks, w.registries, fun n => w.uuids (n + 1)⟩, w.uuids 0)
  | .sequential stem =>
    let n := registry.minted + 1
    (w.withRegistry r ⟨registry.graph, registry.models, registry.strategy, n⟩,
      stem ++ toString n)

/-- Stores a vertex under a new id and gives its instance. -/
def create (w : Workspace) (r : RegistryId) (m : Model) (properties : Properties) :
    Workspace × Instance :=
  let (w, id) := w.mint r
  let (w, _) := w.perform (w.graphOf r) (.setVertex id m.type properties)
  (w, ⟨r, id, m⟩)

def instanceOf? (w : Workspace) (r : RegistryId) (v : Vertex) : Option Instance :=
  (w.model? r v.type).map (fun m => ⟨r, v.id, m⟩)

def instanceOfId? (w : Workspace) (r : RegistryId) (id : VertexId) : Option Instance :=
  ((w.store (w.graphOf r)).vertex? id).bind (w.instanceOf? r)

def project (w : Workspace) (r : RegistryId) (id : VertexId) : Except Error Instance :=
  match (w.store (w.graphOf r)).vertexType? id with
  | none => .error (.missingVertex id)
  | some type => (w.factory r type).map (fun m => ⟨r, id, m⟩)

end Workspace

namespace Instance

variable (w : Workspace) (i : Instance)

def graph : GraphId := w.graphOf i.registry

def store : Store := w.store (i.graph w)

def exists? : Bool := (i.store w).hasVertex i.id

def vertex? : Option Vertex := (i.store w).vertex? i.id

/-- Whether two instances view the same vertex of the same graph. -/
def same (j : Instance) : Bool := i.id == j.id && i.graph w == j.graph w

def unknown (field : String) : Error := .unknownField i.model.type field

def get (property : String) : Except Error (Option Value) :=
  if i.model.hasProperty property then .ok ((i.store w).property? i.id property)
  else .error (i.unknown property)

def set (property : String) (value : Value) : Workspace × Except Error Unit :=
  if i.model.hasProperty property then
    w.performAll (i.graph w) [.setProperty i.id property value]
  else (w, .error (i.unknown property))

/-- The declared properties together with id and type. What is absent comes out as null. -/
def record : Properties :=
  let v := i.vertex? w
  let declared := i.model.properties.map (fun p => (p, (v.bind (fun v => v.get? p)).getD .null))
  SortedEntries.ofList (declared ++ [("id", .string i.id), ("type", .string i.model.type)])

def recordText : String := (i.record w).toJson.canonical

def remove : Workspace × Except Error Reply := w.perform (i.graph w) (.removeVertex i.id)

end Instance

end PropertyGraph
