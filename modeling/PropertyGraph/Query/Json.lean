import PropertyGraph.Query.Basic
import PropertyGraph.Value.Json

namespace PropertyGraph

open Document

/-- The members for a filter and a limit; what is absent is left out. -/
def constraintMembers (filter : Option Value) (limit : Option Nat) : List (String × Json) :=
  (filter.map (fun f => ("filter", f.toJson))).toList
    ++ (limit.map (fun n => ("limit", Json.integer n))).toList

namespace Selection

/-- The members of a selection. Without connections there is no member for them. -/
def members (names : List String) (connections : List (String × Json)) : List (String × Json) :=
  ("properties", .array (names.map .string))
    :: (if connections.isEmpty then [] else [("connections", .object connections)])

def connectionMembers : Selection Value → List (String × Json)
  | properties _ => []
  | connect name inner filter limit rest =>
    (name, .object (members inner.propertyNames inner.connectionMembers
      ++ constraintMembers filter limit)) :: rest.connectionMembers

def toMembers (s : Selection Value) : List (String × Json) :=
  members s.propertyNames s.connectionMembers

def toJson (s : Selection Value) : Json := .object s.toMembers

def names? (fields : List (String × Document)) : Option (List String) :=
  orDefault? "properties" [] (list? string?) fields

mutual

def connections? : Document → Option (List (String × Branch))
  | .object members => memberConnections? members
  | .array items => itemConnections? items
  | _ => none

def memberConnections? : List (String × Document) → Option (List (String × Branch))
  | [] => some []
  | (key, d) :: rest => if key = "connections" then branches? d else memberConnections? rest

def itemConnections? : List Document → Option (List (String × Branch))
  | _ :: d :: _ => branches? d
  | _ => some []

def branches? : Document → Option (List (String × Branch))
  | .object members => eachBranch? members
  | _ => none

def eachBranch? : List (String × Document) → Option (List (String × Branch))
  | [] => some []
  | (name, d) :: rest => do
    let branch ← branch? d
    let branches ← eachBranch? rest
    return (name, branch) :: branches

/-- A connection. Its selection, filter and limit are written as one object. -/
def branch? : Document → Option Branch
  | .object members => do
    let connections ← memberConnections? members
    let fields ← flatFields? ["properties", "connections", "filter", "limit"] (.object members)
    return ⟨ofBranches (← names? fields) (SortedEntries.ofList connections),
      ← orAbsent? "filter" Value.ofDocument? fields, ← orAbsent? "limit" natural? fields⟩
  | _ => none

end

def ofDocument? (d : Document) : Option (Selection Value) := do
  let fields ← d.fields? ["properties", "connections"]
  return ofBranches (← names? fields) (SortedEntries.ofList (← connections? d))

end Selection

namespace Source

def toJson : Source → Json
  | name text => .string text
  | hop what filter limit => .object (("what", .string what) :: constraintMembers filter limit)
  | seed type filter limit => .object (("type", .string type) :: constraintMembers filter limit)

def constrained? (key : String) (make : String → Option Value → Option Nat → Source)
    (d : Document) : Option Source := do
  let fields ← d.flatFields? [key, "filter", "limit"]
  return make (← required? key string? fields) (← orAbsent? "filter" Value.ofDocument? fields)
    (← orAbsent? "limit" natural? fields)

/-- The first form that can be read: a text, a hop, a seed. -/
def ofDocument? (d : Document) : Option Source :=
  d.string?.map name <|> constrained? "what" hop d <|> constrained? "type" seed d

end Source

namespace Query

def toMembers (q : Query) : List (String × Json) :=
  [("select", q.select.toJson), ("from", .array (q.sources.map Source.toJson))]

def toJson (q : Query) : Json := .object q.toMembers

def ofFields? (fields : List (String × Document)) : Option Query := do
  return ⟨← required? "select" Selection.ofDocument? fields,
    ← required? "from" (list? Source.ofDocument?) fields⟩

def ofDocument? (d : Document) : Option Query := (d.fields? ["select", "from"]).bind ofFields?

def parse? (text : String) : Option Query := (Document.parse? text).bind ofDocument?

end Query

namespace SignedQuery

def toJson (q : SignedQuery) : Json := .object (("token", .string q.token) :: q.query.toMembers)

def text (q : SignedQuery) : String := q.toJson.canonical

def ofDocument? (d : Document) : Option SignedQuery := do
  let fields ← d.flatFields? ["token", "select", "from"]
  return ⟨← required? "token" string? fields, ← Query.ofFields? fields⟩

def parse? (text : String) : Option SignedQuery := (Document.parse? text).bind ofDocument?

end SignedQuery

end PropertyGraph
