import PropertyGraph.Value.Basic

namespace PropertyGraph.Value

mutual

/-- Equality of values of one kind. Numbers in double precision compare numerically, so a NaN
differs from itself, also inside a list or a map. -/
def equal : Value → Value → Bool
  | null, null => true
  | bool a, bool b => a == b
  | int a, int b => a == b
  | double x, double y => x.equal y
  | string s, string t => s == t
  | list as, list bs => equalItems as bs
  | map as, map bs => equalEntries as bs
  | _, _ => false

def equalItems : List Value → List Value → Bool
  | [], [] => true
  | a :: as, b :: bs => a.equal b && equalItems as bs
  | _, _ => false

def equalEntries : List (String × Value) → List (String × Value) → Bool
  | [], [] => true
  | (k, a) :: as, (l, b) :: bs => k == l && a.equal b && equalEntries as bs
  | _, _ => false

end

/-- Equality that also matches an integer with a double, once the integer is rounded to a
double. Inside lists and maps the kinds of number stay apart. -/
def looseEqual : Value → Value → Bool
  | int i, double x => (Double.ofInt i.toInt).equal x
  | double x, int i => (Double.ofInt i.toInt).equal x
  | a, b => a.equal b

/-- The order of two numbers, two strings or two booleans. Strings go by code points. -/
def compare? : Value → Value → Option Ordering
  | bool a, bool b => some (compare a b)
  | int i, int j => some (compare i.toInt j.toInt)
  | double x, double y => x.compare? y
  | int i, double y => (Double.ofInt i.toInt).compare? y
  | double x, int j => x.compare? (Double.ofInt j.toInt)
  | string s, string t => some (compare s t)
  | _, _ => none

end PropertyGraph.Value
