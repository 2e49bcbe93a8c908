import PropertyGraph.Error
import PropertyGraph.Filter.Operator
import PropertyGraph.Pattern.Reader

namespace PropertyGraph

inductive Connective where
  | all
  | any
  | noneOf
deriving DecidableEq

def Connective.name : Connective → String
  | all => "and"
  | any => "or"
  | noneOf => "not"

/-- A condition on vertices. -/
inductive Filter where
  | combine (c : Connective) (filters : List Filter)
  | equals (property : String) (value : Value)
  | test (op : Operator) (property : String) (operand : Value)
  | matching (property : String) (pattern : Pattern)

namespace Filter

def anything : Filter := combine .all []

instance : Inhabited Filter := ⟨anything⟩

/-- What the key of an entry asks for. A key without a dollar sign names a property. -/
inductive Head where
  | property (name : String)
  | connective (c : Connective)
  | patterns
  | operator (op : Operator)
  | unknown (name : String)

namespace Head

def ofOperator (name : String) : Head :=
  if name = Connective.all.name then connective .all
  else if name = Connective.any.name then connective .any
  else if name = Connective.noneOf.name then connective .noneOf
  else if name = "matches" then patterns
  else match Operator.ofName? name with
    | some op => operator op
    | none => unknown name

def ofKey (key : String) : Head :=
  match key.toList with
  | '$' :: name => ofOperator (String.ofList name)
  | _ => property key

end Head

def operands (name : String) : Value → Except QueryFault Properties
  | .map entries => .ok entries
  | _ => .error (.needsOperands name)

def ofPattern (property : String) (v : Value) : Except QueryFault Filter :=
  match v with
  | .string text =>
    match Pattern.parse? text with
    | some p => .ok (matching property p)
    | none => .error (.badPattern property)
  | _ => .error (.needsPattern property)

mutual

/-- Reads a filter from a value. The conditions are the entries of a map, by ascending key. -/
def compile : Value → Except QueryFault Filter
  | .map entries => (compileEntries entries).map (combine .all)
  | v => .error (.notAnObject v.typeName)

def compileEntries : List (String × Value) → Except QueryFault (List Filter)
  | [] => .ok []
  | (key, v) :: rest => do
    let clauses ← compileEntry (Head.ofKey key) v
    let others ← compileEntries rest
    return clauses ++ others

def compileEntry : Head → Value → Except QueryFault (List Filter)
  | .connective c, .list items => (compileItems items).map (fun filters => [combine c filters])
  | .connective c, _ => .error (.needsFilters c.name)
  | .property name, v => .ok [equals name v]
  | .patterns, v => do (← operands "matches" v).mapM (fun e => ofPattern e.1 e.2)
  | .operator op, v => do return (← operands op.name v).map (fun e => test op e.1 e.2)
  | .unknown name, _ => .error (.unknownOperator name)

def compileItems : List Value → Except QueryFault (List Filter)
  | [] => .ok []
  | item :: rest => do
    let filter ← compile item
    let filters ← compileItems rest
    return filter :: filters

end

mutual

/-- Whether a vertex meets the condition. -/
def accepts (v : Vertex) : Filter → Bool
  | combine .all filters => acceptsAll v filters
  | combine .any filters => acceptsAny v filters
  | combine .noneOf filters => !acceptsAny v filters
  | equals property value => (v.get? property).any (fun w => w.looseEqual value)
  | test op property operand => op.accepts (v.get? property) operand
  | matching property pattern => ((v.get? property).bind Value.string?).any pattern.occursIn

def acceptsAll (v : Vertex) : List Filter → Bool
  | [] => true
  | filter :: rest => accepts v filter && acceptsAll v rest

def acceptsAny (v : Vertex) : List Filter → Bool
  | [] => false
  | filter :: rest => accepts v filter || acceptsAny v rest

end

end Filter

end PropertyGraph
