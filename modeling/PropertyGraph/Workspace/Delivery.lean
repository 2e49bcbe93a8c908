import PropertyGraph.Store.Run
import PropertyGraph.Workspace.Basic

namespace PropertyGraph

/-- A change of a graph, with the event that its subscribers are told. -/
structure Change where
  graph : GraphId
  event : Event

/-- What there is to do: calls on graphs one after the other, or sinks to tell of an event. -/
inductive Errand where
  | calls (calls : List (GraphId × Call))
  | tell (event : Event) (sinks : List SinkId)

/-- The events of one graph, in the order of the changes. -/
def eventsOf (g : GraphId) (changes : List Change) : List Event :=
  (changes.filter (fun c => c.graph = g)).map Change.event

/-- What a sink would record that hears of each change when it takes effect, once for each time
that it is subscribed. -/
def due (subscribers : GraphId → List SinkId) (i : SinkId) (changes : List Change) : List Event :=
  changes.flatMap (fun c => List.replicate ((subscribers c.graph).count i) c.event)

/-- No sink that writes is told before the given one. -/
def Foremost (writes : SinkId → Bool) (i : SinkId) (sinks : List SinkId) : Prop :=
  sinks.Pairwise (fun j k => k = i → writes j = false)

instance (writes : SinkId → Bool) (i : SinkId) (sinks : List SinkId) :
    Decidable (Foremost writes i sinks) :=
  inferInstanceAs (Decidable (sinks.Pairwise (fun j k => k = i → writes j = false)))

/-- Where a sink stands among those that write: `true` for each of these, `false` for itself. -/
def standing (writes : SinkId → Bool) (i : SinkId) (sinks : List SinkId) : List Bool :=
  (sinks.filter (fun j => writes j || j = i)).map writes

namespace Workspace

/-- A sink records an event. What else it remembers of it is its own affair. -/
def hear (event : Event) (seen : Nat) (w : Workspace) (i : SinkId) : Workspace :=
  let sink := w.sink i
  w.withSink i ⟨sink.journal ++ [event], sink.reaction, seen⟩

/-- How an errand leads from one workspace to another, with the changes on the way in the order in
which they take effect. A sink that writes may answer an event with calls, and these are over,
with all that they bring about, before the next sink is told. -/
inductive Unfolds (writes : SinkId → Bool) :
    Workspace → Errand → List Change → Workspace → Prop where
  | done (w : Workspace) : Unfolds writes w (.calls []) [] w
  | refused {w x : Workspace} {g : GraphId} {c : Call} {rest : List (GraphId × Call)} {e : Error}
      {later : List Change} (call : (w.store g).call c = .error e)
      (onward : Unfolds writes w (.calls rest) later x) :
      Unfolds writes w (.calls ((g, c) :: rest)) later x
  | silent {w x : Workspace} {g : GraphId} {c : Call} {rest : List (GraphId × Call)} {o : Outcome}
      {later : List Change} (call : (w.store g).call c = .ok o) (quiet : o.event = none)
      (onward : Unfolds writes (w.withStore g o.store) (.calls rest) later x) :
      Unfolds writes w (.calls ((g, c) :: rest)) later x
  | heard {w x y : Workspace} {g : GraphId} {c : Call} {rest : List (GraphId × Call)} {o : Outcome}
      {event : Event} {answers later : List Change} (call : (w.store g).call c = .ok o)
      (news : o.event = some event)
      (told : Unfolds writes (w.withStore g o.store) (.tell event (w.subscribers g)) answers y)
      (onward : Unfolds writes y (.calls rest) later x) :
      Unfolds writes w (.calls ((g, c) :: rest)) (⟨g, event⟩ :: (answers ++ later)) x
  | told (w : Workspace) (event : Event) : Unfolds writes w (.tell event []) [] w
  | next {w x y : Workspace} {event : Event} {j : SinkId} {rest : List SinkId} {seen : Nat}
      {answer : List (GraphId × Call)} {answers later : List Change}
      (able : answer ≠ [] → writes j = true)
      (answered : Unfolds writes (w.hear event seen j) (.calls answer) answers y)
      (onward : Unfolds writes y (.tell event rest) later x) :
      Unfolds writes w (.tell event (j :: rest)) (answers ++ later) x

def writes (w : Workspace) (i : SinkId) : Bool := (w.sink i).reaction.isSome

/-- The state after a call on a graph, also after one that fails. -/
def called (w : Workspace) : GraphId × Call → Workspace
  | (g, .perform m) => (w.perform g m).1
  | (g, .apply event) => (w.apply g event).1

end Workspace

end PropertyGraph
