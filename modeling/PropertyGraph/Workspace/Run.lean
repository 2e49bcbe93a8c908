import PropertyGraph.Workspace.Connection

namespace PropertyGraph

/-- A call that makes an instance of a model, or a call on an instance. A connection is called by
its name. -/
inductive ModelCall where
  | create (r : RegistryId) (m : Model) (properties : Properties)
  | set (i : Instance) (property : String) (value : Value)
  | remove (i : Instance)
  | setTarget (i : Instance) (connection : String) (target : Option Instance)
  | clear (i : Instance) (connection : String)
  | add (i : Instance) (connection : String) (member : Instance)
  | removeMember (i : Instance) (connection : String) (member : Instance)

/-- The instance that a call is made on, unless it makes one. -/
def ModelCall.receiver? : ModelCall → Option Instance
  | create _ _ _ => none
  | set i _ _ => some i
  | remove i => some i
  | setTarget i _ _ => some i
  | clear i _ => some i
  | add i _ _ => some i
  | removeMember i _ _ => some i

namespace Workspace

def onConnection (w : Workspace) (found : Except Error Connection)
    (call : Connection → Workspace × Except Error Unit) : Workspace × Except Error Unit :=
  match found with
  | .error e => (w, .error e)
  | .ok c => call c

/-- Performs a call. One that fails keeps what it has changed so far. -/
def performCall (w : Workspace) : ModelCall → Workspace × Except Error Unit
  | .create r m properties => ((w.create r m properties).1, .ok ())
  | .set i property value => i.set w property value
  | .remove i =>
    let (w, result) := i.remove w
    (w, result.map (fun _ => ()))
  | .setTarget i name target => w.onConnection (i.single name) (fun c => i.setTarget w c target)
  | .clear i name => w.onConnection (i.single name) (fun c => i.clear w c)
  | .add i name member => w.onConnection (i.collection name) (fun c => i.add w c member)
  | .removeMember i name member =>
    w.onConnection (i.collection name) (fun c => i.removeMember w c member)

/-- The state after calls, also after those that fail. -/
def afterCalls (w : Workspace) (calls : List ModelCall) : Workspace :=
  calls.foldl (fun w call => (w.performCall call).1) w

/-- Whether an instance is viewed through the model that its registry has for its type. -/
def Knows (w : Workspace) (i : Instance) : Prop :=
  w.model? i.registry i.model.type = some i.model

/-- Whether a model that is registered over a graph has the connection. -/
def Declares (w : Workspace) (g : GraphId) (c : Connection) : Prop :=
  ∃ r type m name, w.graphOf r = g ∧ w.model? r type = some m ∧ m.connections.get? name = some c

end Workspace

end PropertyGraph
