import PropertyGraph.Value.Order

namespace PropertyGraph

inductive Operator where
  | contains
  | starts
  | ends
  | less
  | more
  | isIn
  | type
  | defined
  | undefined
  | test
deriving DecidableEq

namespace Operator

def name : Operator → String
  | contains => "contains"
  | starts => "starts"
  | ends => "ends"
  | less => "less"
  | more => "more"
  | isIn => "in"
  | type => "type"
  | defined => "defined"
  | undefined => "undefined"
  | test => "test"

def all : List Operator :=
  [contains, starts, ends, less, more, isIn, type, defined, undefined, test]

def ofName? (name : String) : Option Operator := all.find? (fun op => op.name = name)

/-- Whether the first text stands somewhere in the second. -/
def isPartOf (part : List Char) : List Char → Bool
  | [] => part.isEmpty
  | c :: rest => part.isPrefixOf (c :: rest) || isPartOf part rest

def isNumber : Value → Bool
  | .int _ => true
  | .double _ => true
  | _ => false

/-- The names of the type of a value. An integer has one of its own besides. -/
def isOfType (v : Value) (name : String) : Bool :=
  match v with
  | .int _ => name == v.typeName || name == "integer"
  | v => name == v.typeName

/-- Whether a present value passes. Text contains its parts, and a list its items. Only numbers
are less or more than anything. -/
def acceptsValue (op : Operator) (v operand : Value) : Bool :=
  match op, v, operand with
  | contains, .string s, .string part => isPartOf part.toList s.toList
  | contains, .list items, item => items.any (fun i => i.looseEqual item)
  | contains, _, _ => false
  | starts, .string s, .string start => start.toList.isPrefixOf s.toList
  | starts, _, _ => false
  | ends, .string s, .string ending => ending.toList.isSuffixOf s.toList
  | ends, _, _ => false
  | less, v, operand => isNumber v && v.compare? operand == some .lt
  | more, v, operand => isNumber v && v.compare? operand == some .gt
  | isIn, v, .list items => items.any (fun i => v.looseEqual i)
  | isIn, _, _ => false
  | type, v, .string name => isOfType v name
  | type, _, _ => false
  | defined, _, _ => true
  | undefined, _, _ => false
  | test, v, operand => v.looseEqual operand

/-- Whether an absent value passes. -/
def acceptsAbsence (op : Operator) (operand : Value) : Bool :=
  match op, operand with
  | undefined, _ => true
  | type, .string name => name == "undefined"
  | _, _ => false

def accepts (op : Operator) (v : Option Value) (operand : Value) : Bool :=
  match v with
  | none => op.acceptsAbsence operand
  | some v => op.acceptsValue v operand

end Operator

end PropertyGraph
