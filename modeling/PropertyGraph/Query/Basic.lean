import PropertyGraph.Value.Basic

namespace PropertyGraph

/-- What to copy from a vertex: its connections by ascending name, and then its properties. What
a connection reaches is selected in turn, after a filter and up to a limit. -/
inductive Selection (φ : Type) where
  | properties (names : List String)
  | connect (name : String) (inner : Selection φ) (filter : Option φ) (limit : Option Nat)
      (rest : Selection φ)

/-- A part of the way that leads to the selected vertices. -/
inductive Source where
  /-- A hop without constraints; in the last place, the id of a vertex. -/
  | name (text : String)
  | hop (name : String) (filter : Option Value) (limit : Option Nat)
  | seed (type : String) (filter : Option Value) (limit : Option Nat)

/-- A query as plain data: hops that lead inwards to a seed, and what to select. -/
structure Query where
  select : Selection Value
  sources : List Source

structure SignedQuery where
  token : String
  query : Query

namespace Selection

variable {φ : Type}

instance : Inhabited (Selection φ) := ⟨properties []⟩

def propertyNames : Selection φ → List String
  | properties names => names
  | connect _ _ _ _ rest => rest.propertyNames

end Selection

structure Branch where
  inner : Selection Value
  filter : Option Value
  limit : Option Nat

def Selection.ofBranches (names : List String) (branches : List (String × Branch)) :
    Selection Value :=
  branches.foldr (fun b rest => .connect b.1 b.2.inner b.2.filter b.2.limit rest)
    (.properties names)

end PropertyGraph
