import PropertyGraph.Graph.Vertex

namespace PropertyGraph

inductive Side where
  | outgoing
  | incoming
deriving DecidableEq

def Side.label : Side → String
  | outgoing => "outgoing"
  | incoming => "incoming"

/-- What makes a snapshot unfit to be restored. -/
inductive SnapshotFault where
  | unknownOwner (side : Side) (id : VertexId)
  | unknownNeighbor (side : Side) (id neighbor : VertexId)
  | badTypes (side : Side) (id neighbor : VertexId)
  | notMirrored (side : Side) (id neighbor : VertexId)
  | misfiled (id : VertexId) (type bucket : String)
  | unknownMember (bucket : String) (id : VertexId)
  | notIndexed (id : VertexId) (type : String)
deriving DecidableEq

namespace SnapshotFault

def message : SnapshotFault → String
  | unknownOwner side id => s!"{side.label} adjacency for unknown vertex {id}"
  | unknownNeighbor side id neighbor =>
    s!"{side.label} adjacency of {id} names unknown vertex {neighbor}"
  | badTypes side id neighbor =>
    s!"{side.label} edge types between {id} and {neighbor} are empty or repeated"
  | notMirrored side id neighbor =>
    s!"{side.label} edges between {id} and {neighbor} are not mirrored"
  | misfiled id type bucket => s!"vertex {id} of type {type} indexed under {bucket}"
  | unknownMember bucket id => s!"type index {bucket} names unknown vertex {id}"
  | notIndexed id type => s!"vertex {id} missing from type index {type}"

end SnapshotFault

/-- What makes a query unfit to be run. -/
inductive QueryFault where
  | notAnObject (typeName : String)
  | needsFilters (operator : String)
  | needsOperands (operator : String)
  | needsPattern (property : String)
  | badPattern (property : String)
  | unknownOperator (operator : String)
  | noSeed
  | earlySeed (type : String)
  | hopAsSeed (name : String)
deriving DecidableEq

namespace QueryFault

def message : QueryFault → String
  | notAnObject typeName => s!"filter must be an object, got {typeName}"
  | needsFilters operator => s!"${operator} takes a list of filters"
  | needsOperands operator => s!"${operator} takes an object of property operands"
  | needsPattern property => s!"$matches on {property} needs a string pattern"
  | badPattern property => s!"$matches on {property}"
  | unknownOperator operator => s!"unknown operator ${operator}"
  | noSeed => "`from` is empty"
  | earlySeed type => s!"seed by type {type} must be the last element of `from`"
  | hopAsSeed name => s!"last element of `from` must be a seed, got hop {name}"

end QueryFault

inductive Error where
  | missingVertex (id : VertexId)
  | missingSeed (id : VertexId)
  | wrongType (expected got : String)
  | foreignInstance (type : String) (id : VertexId)
  | badToken
  | unknownField (model field : String)
  | unregisteredType (type : String)
  | badQuery (fault : QueryFault)
  | reservedKey (key : String)
  | badSnapshot (fault : SnapshotFault)
  | missingVariable (name : String)
  | unreadable
deriving DecidableEq

namespace Error

def message : Error → String
  | missingVertex id => s!"Reference error: vertex {id} does not exist"
  | missingSeed id => s!"Reference error: seed vertex {id} does not exist"
  | wrongType expected got => s!"Type error: expected {expected}, got {got}"
  | foreignInstance type id =>
    s!"Type error: expected model instance of this store, got {type} {id}"
  | badToken => "Integrity error: schema token does not match its body"
  | unknownField model field => s!"Unknown field {field} on {model}"
  | unregisteredType type => s!"Unregistered model type: {type}"
  | badQuery fault => s!"Invalid query: {fault.message}"
  | reservedKey key => s!"Reserved property key: {key}"
  | badSnapshot fault => s!"Invalid snapshot: {fault.message}"
  | missingVariable name => s!"Configuration error: environment variable {name} is not set"
  | unreadable => "Serialization error: the text is not a document of the expected form"

end Error

end PropertyGraph
