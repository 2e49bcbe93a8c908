import PropertyGraph.Store.Mutation

namespace PropertyGraph

/-- A call on a store: a mutation, or the repetition of a change. -/
inductive Call where
  | perform (m : Mutation)
  | apply (event : Event)

namespace Store

def call (s : Store) : Call → Except Error Outcome
  | .perform m => s.perform m
  | .apply event => s.apply event

/-- The store behind a call. One that fails leaves it as it was. -/
def after (s : Store) (c : Call) : Store :=
  match s.call c with
  | .ok outcome => outcome.store
  | .error _ => s

theorem after_perform (s : Store) (m : Mutation) :
    s.after (.perform m) =
      match s.perform m with
      | .ok outcome => outcome.store
      | .error _ => s := rfl

def run (s : Store) (calls : List Call) : Store := calls.foldl after s

/-- Repeats changes up to the first that fails. -/
def applyAll (s : Store) : List Event → Except Error Store
  | [] => .ok s
  | event :: rest =>
    match s.apply event with
    | .error e => .error e
    | .ok outcome => outcome.store.applyAll rest

def news (s : Store) (m : Mutation) : List Event :=
  match s.perform m with
  | .ok outcome => outcome.event.toList
  | .error _ => []

def history (s : Store) : List Mutation → List Event
  | [] => []
  | m :: rest => s.news m ++ (s.after (.perform m)).history rest

/-- Whether a mutation gives no present vertex another type. -/
def keepsType (s : Store) : Mutation → Bool
  | .setVertex id type _ => (s.vertexType? id).all (fun present => present = type)
  | _ => true

/-- The mutation that a call comes down to, if any. -/
def mutation? (s : Store) : Call → Option Mutation
  | .perform m => some m
  | .apply event => s.mutationOf? event

/-- Whether no call of a run gives a vertex, present at that time, another type. -/
def keepsTypes (s : Store) : List Call → Bool
  | [] => true
  | c :: rest => (s.mutation? c).all s.keepsType && (s.after c).keepsTypes rest

end Store

end PropertyGraph
