import PropertyGraph.Workspace.Instance

namespace PropertyGraph.Instance

variable (w : Workspace) (i : Instance)

def single (name : String) : Except Error Connection :=
  match i.model.single? name with
  | some c => .ok c
  | none => .error (i.unknown name)

def collection (name : String) : Except Error Connection :=
  match i.model.collection? name with
  | some c => .ok c
  | none => .error (i.unknown name)

/-- Whether another instance may stand in a connection: it views the same graph, and its type is
registered here. -/
def recognizes (j : Instance) : Bool :=
  i.graph w == j.graph w && w.isRegistered i.registry j.model.type

def check (j : Instance) : Except Error Unit :=
  if i.recognizes w j then .ok () else .error (.foreignInstance j.model.type j.id)

/-- The ids at the other ends of a connection's edges, in the order of the adjacency. -/
def targets (c : Connection) : List VertexId :=
  (((i.store w).outEdges i.id).filter (fun e => e.type = c.name)).map Edge.target

def linking (c : Connection) (target : VertexId) : List Mutation :=
  (c.edges i.id target).map .setEdge

def unlinking (c : Connection) (target : VertexId) : List Mutation :=
  (c.edges i.id target).map .removeEdge

/-- The first target that is an instance. -/
def singleTarget? (c : Connection) : Option Instance :=
  (i.targets w c).findSome? (w.instanceOfId? i.registry)

def isSet (c : Connection) : Bool := !(i.targets w c).isEmpty

/-- The mutations that leave a single connection without target. -/
def clearing (c : Connection) : List Mutation := (i.targets w c).flatMap (i.unlinking c)

/-- The mutations that make one target the only one. -/
def replacing (c : Connection) (target : VertexId) : List Mutation :=
  ((i.targets w c).filter (fun t => t ≠ target)).flatMap (i.unlinking c) ++ i.linking c target

def clear (c : Connection) : Workspace × Except Error Unit :=
  w.performAll (i.graph w) (i.clearing w c)

def setTarget (c : Connection) (target : Option Instance) : Workspace × Except Error Unit :=
  match target with
  | none => i.clear w c
  | some j =>
    match i.check w j with
    | .error e => (w, .error e)
    | .ok _ => w.performAll (i.graph w) (i.replacing w c j.id)

/-- The present members of a collection that are instances. -/
def members (c : Connection) : List Instance :=
  (i.targets w c).filterMap (w.instanceOfId? i.registry)

def has (c : Connection) (j : Instance) : Except Error Bool :=
  (i.check w j).map (fun _ => (i.store w).hasEdge ⟨i.id, j.id, c.name⟩)

def add (c : Connection) (j : Instance) : Workspace × Except Error Unit :=
  match i.check w j with
  | .error e => (w, .error e)
  | .ok _ => w.performAll (i.graph w) (i.linking c j.id)

def removeMember (c : Connection) (j : Instance) : Workspace × Except Error Unit :=
  match i.check w j with
  | .error e => (w, .error e)
  | .ok _ => w.performAll (i.graph w) (i.unlinking c j.id)

/-- The value of a derived member. The fuel bounds the members that it goes through; a member
that leads back to itself has no value. -/
def derivedValue : Nat → String → Except Error Value
  | 0, name => .error (i.unknown name)
  | fuel + 1, name =>
    match i.model.derived.get? name with
    | none => .error (i.unknown name)
    | some (.isSet c) => (i.single c).map (fun c => .bool (i.isSet w c))
    | some (.count c) => (i.collection c).map (fun c => Value.ofInteger (i.members w c).length)
    | some (.property p) => (i.get w p).map (fun v => v.getD .null)
    | some (.via other) => derivedValue fuel other
    | some (.constant v) => .ok v

def derived (name : String) : Except Error Value :=
  i.derivedValue w (i.model.derived.size + 1) name

end PropertyGraph.Instance
