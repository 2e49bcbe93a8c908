import PropertyGraph.Config
import PropertyGraph.Model.Basic
import PropertyGraph.Store.Mutation
import PropertyGraph.Value.Json

namespace PropertyGraph

abbrev GraphId := Nat

abbrev SinkId := Nat

abbrev RegistryId := Nat

/-- A store and the sinks that hear of its changes, in the order of their subscription. -/
structure Graph where
  store : Store
  subscribers : List SinkId

/-- What a sink does about an edge event of a kind: it writes the number of such events under a
key of the vertex that the edge leaves. -/
structure Reaction where
  graph : GraphId
  kind : Event.Kind
  key : String

/-- A journal of events. A sink with a reaction also counts the events that it reacted to. -/
structure Sink where
  journal : List Event
  reaction : Option Reaction
  seen : Nat

/-- The models that are declared over a graph, and the ids made for their instances. -/
structure Registry where
  graph : GraphId
  models : OrderedMap String Model
  strategy : IdStrategy
  minted : UInt64

/-- All that can be shared: graphs, sinks and registries, each known by its position. The ids that
the source of unique ids is still to give can be any. -/
structure Workspace where
  graphs : List Graph
  sinks : List Sink
  registries : List Registry
  uuids : Nat → VertexId

namespace Workspace

/-- A source of unique ids that counts: identifiers of version 4, one for each number. -/
def countedUuid (n : Nat) : VertexId :=
  let digits := Nat.toDigits 16 n
  String.ofList ("00000000-0000-4000-8000-".toList ++ List.replicate (12 - digits.length) '0'
    ++ digits)

def empty : Workspace := ⟨[], [], [], countedUuid⟩

instance : Inhabited Workspace := ⟨empty⟩

def store (w : Workspace) (g : GraphId) : Store := (w.graphs[g]?.map Graph.store).getD .empty

def subscribers (w : Workspace) (g : GraphId) : List SinkId :=
  (w.graphs[g]?.map Graph.subscribers).getD []

def sink (w : Workspace) (i : SinkId) : Sink := w.sinks[i]?.getD ⟨[], none, 0⟩

def registry (w : Workspace) (r : RegistryId) : Registry :=
  w.registries[r]?.getD ⟨0, .empty, .uuid, 0⟩

def withStore (w : Workspace) (g : GraphId) (s : Store) : Workspace :=
  ⟨w.graphs.modify g (fun graph => ⟨s, graph.subscribers⟩), w.sinks, w.registries, w.uuids⟩

def withSink (w : Workspace) (i : SinkId) (sink : Sink) : Workspace :=
  ⟨w.graphs, w.sinks.modify i (fun _ => sink), w.registries, w.uuids⟩

def withRegistry (w : Workspace) (r : RegistryId) (registry : Registry) : Workspace :=
  ⟨w.graphs, w.sinks, w.registries.modify r (fun _ => registry), w.uuids⟩

def addGraph (w : Workspace) (s : Store) : Workspace × GraphId :=
  (⟨w.graphs ++ [⟨s, []⟩], w.sinks, w.registries, w.uuids⟩, w.graphs.length)

def addSink (w : Workspace) (reaction : Option Reaction) : Workspace × SinkId :=
  (⟨w.graphs, w.sinks ++ [⟨[], reaction, 0⟩], w.registries, w.uuids⟩, w.sinks.length)

def addRegistry (w : Workspace) (g : GraphId) (c : GraphConfig) : Workspace × RegistryId :=
  (⟨w.graphs, w.sinks, w.registries ++ [⟨g, .empty, c.strategy, 0⟩], w.uuids⟩,
    w.registries.length)

/-- A sink that subscribes twice hears of every event twice. -/
def subscribe (w : Workspace) (g : GraphId) (i : SinkId) : Workspace :=
  ⟨w.graphs.modify g (fun graph => ⟨graph.store, graph.subscribers ++ [i]⟩), w.sinks,
    w.registries, w.uuids⟩

def record (event : Event) (w : Workspace) (i : SinkId) : Workspace :=
  let sink := w.sink i
  w.withSink i ⟨sink.journal ++ [event], sink.reaction, sink.seen⟩

def recordAll (w : Workspace) (g : GraphId) (event : Event) : Workspace :=
  (w.subscribers g).foldl (record event) w

/-- The reaction of a sink to an event, and the edge that it is about. -/
def reactionTo? (sink : Sink) (event : Event) : Option (Reaction × Edge) := do
  let reaction ← sink.reaction
  let edge ← event.edge?
  if event.kind = reaction.kind then return (reaction, edge) else none

/-- Lets a sink react. Its write is an update of a vertex, to which no sink reacts; a write that
fails is given up. -/
def react (event : Event) (w : Workspace) (i : SinkId) : Workspace :=
  let sink := w.sink i
  match reactionTo? sink event with
  | none => w
  | some (reaction, edge) =>
    let seen := sink.seen + 1
    let w := w.withSink i ⟨sink.journal, sink.reaction, seen⟩
    match (w.store reaction.graph).setProperty edge.origin reaction.key (Value.ofInteger seen) with
    | .error _ => w
    | .ok (s, update) => (w.withStore reaction.graph s).recordAll reaction.graph update

/-- A sink records an event before it reacts. -/
def deliver (event : Event) (w : Workspace) (i : SinkId) : Workspace :=
  react event (record event w i) i

def announce (w : Workspace) (g : GraphId) (event : Event) : Workspace :=
  (w.subscribers g).foldl (deliver event) w

/-- The state and the answer after a change of a store. The event comes after the change. -/
def settle (w : Workspace) (g : GraphId) (outcome : Outcome) : Workspace :=
  let w := w.withStore g outcome.store
  match outcome.event with
  | none => w
  | some event => w.announce g event

/-- Performs a mutation on a graph. One that fails changes nothing. -/
def perform (w : Workspace) (g : GraphId) (m : Mutation) : Workspace × Except Error Reply :=
  match (w.store g).perform m with
  | .error e => (w, .error e)
  | .ok outcome => (w.settle g outcome, .ok outcome.reply)

/-- Performs mutations up to the first that fails. -/
def performAll (w : Workspace) (g : GraphId) : List Mutation → Workspace × Except Error Unit
  | [] => (w, .ok ())
  | m :: rest =>
    match w.perform g m with
    | (w, .error e) => (w, .error e)
    | (w, .ok _) => w.performAll g rest

/-- Performs mutations one after the other, also past those that fail. -/
def run (w : Workspace) (g : GraphId) (ms : List Mutation) : Workspace :=
  ms.foldl (fun w m => (w.perform g m).1) w

def apply (w : Workspace) (g : GraphId) (event : Event) : Workspace × Except Error Unit :=
  match (w.store g).apply event with
  | .error e => (w, .error e)
  | .ok outcome => (w.settle g outcome, .ok ())

def applyAll (w : Workspace) (g : GraphId) : List Event → Workspace × Except Error Unit
  | [] => (w, .ok ())
  | event :: rest =>
    match w.apply g event with
    | (w, .error e) => (w, .error e)
    | (w, .ok _) => w.applyAll g rest

def takeJournal (w : Workspace) (i : SinkId) : Workspace × List Event :=
  let sink := w.sink i
  (w.withSink i ⟨[], sink.reaction, sink.seen⟩, sink.journal)

/-- The events that take a journal back, from its last event to its first. -/
def inverses (journal : List Event) : List Event := journal.reverse.flatMap Event.inverse

/-- Takes the journal of a sink and undoes it on a graph. -/
def undo (w : Workspace) (g : GraphId) (i : SinkId) : Workspace × Except Error Nat :=
  let (w, journal) := w.takeJournal i
  let (w, result) := w.applyAll g (inverses journal)
  (w, result.map (fun _ => journal.length))

end Workspace

end PropertyGraph
