import PropertyGraph.Error
import PropertyGraph.Json.Printer
import PropertyGraph.Json.Record

namespace PropertyGraph

open Document

inductive IdStrategy where
  | uuid
  /-- The stem followed by a running number, which starts at 1. -/
  | sequential (stem : String)
deriving DecidableEq

namespace IdStrategy

def toJson : IdStrategy → Json
  | uuid => .object [("kind", .string "uuid")]
  | sequential stem => .object [("kind", .string "sequential"), ("prefix", .string stem)]

/-- The kind of a written strategy, and its other fields where there are some. As an array the
kind comes first. -/
def tagged? : Document → Option (String × Document)
  | .object members => do
    let kind ← (known? ["kind"] members).bind (required? "kind" string?)
    return (kind, .object members)
  | .array (.string kind :: rest) => some (kind, .array rest)
  | _ => none

def ofDocument? (d : Document) : Option IdStrategy := do
  if !d.readable then none
  let (kind, body) ← tagged? d
  match kind with
  | "uuid" => (fields? [] body).map (fun _ => uuid)
  | "sequential" =>
    return sequential (← required? "prefix" string? (← fields? ["prefix"] body))
  | _ => none

end IdStrategy

structure GraphConfig where
  strategy : IdStrategy
deriving DecidableEq

namespace GraphConfig

def default : GraphConfig := ⟨.uuid⟩

def sequential (stem : String) : GraphConfig := ⟨.sequential stem⟩

def toJson (c : GraphConfig) : Json := .object [("id_strategy", c.strategy.toJson)]

def ofDocument? (d : Document) : Option GraphConfig := do
  let fields ← d.fields? ["id_strategy"]
  return ⟨← orDefault? "id_strategy" .uuid IdStrategy.ofDocument? fields⟩

def parse? (text : String) : Option GraphConfig := (Document.parse? text).bind ofDocument?

end GraphConfig

structure QueryConfig where
  secret : List UInt8
deriving DecidableEq

namespace QueryConfig

def toJson (c : QueryConfig) : Json :=
  .object [("secret", .array (c.secret.map (fun b => .integer b.toNat)))]

def byte? (d : Document) : Option UInt8 := do
  let n ← d.natural?
  if n < 256 then return UInt8.ofNat n else none

def ofDocument? (d : Document) : Option QueryConfig := do
  let fields ← d.fields? ["secret"]
  return ⟨← required? "secret" (list? byte?) fields⟩

def parse? (text : String) : Option QueryConfig := (Document.parse? text).bind ofDocument?

/-- The secret that the named variable holds. An empty one is as good as none. -/
def ofVariable (name : String) (value : Option String) : Except Error QueryConfig :=
  match value with
  | none => .error (.missingVariable name)
  | some text =>
    if text.isEmpty then .error (.missingVariable name) else .ok ⟨text.toUTF8.toList⟩

def describe (_ : QueryConfig) : String := "QueryConfig \x7b secret: \"<redacted>\" \x7d"

end QueryConfig

end PropertyGraph
