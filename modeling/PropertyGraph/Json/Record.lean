import PropertyGraph.Json.Document

namespace PropertyGraph.Document

variable {α : Type}

def readable (d : Document) : Bool := d.json?.isSome

def string? : Document → Option String
  | .string s => some s
  | _ => none

def bool? : Document → Option Bool
  | .bool b => some b
  | _ => none

/-- An integer from 0 up to 2^64 - 1; the reader gives no larger one. -/
def natural? : Document → Option Nat
  | .integer (.ofNat n) => some n
  | _ => none

/-- Absent and null are the same. -/
def optional? (read : Document → Option α) : Document → Option (Option α)
  | .null => some none
  | d => (read d).map some

def list? (read : Document → Option α) : Document → Option (List α)
  | .array items => items.mapM read
  | _ => none

/-- A keyed map. Of repeated keys the last value counts, in the place of the first. -/
def map? (read : Document → Option α) : Document → Option (OrderedMap String α)
  | .object members =>
    (members.mapM (fun m => (read m.2).map (fun a => (m.1, a)))).map OrderedMap.ofList
  | _ => none

/-- The members of an object that have one of the names. A name may not occur twice. -/
def known? (names : List String) (members : List (String × Document)) :
    Option (List (String × Document)) :=
  let found := members.filter (fun m => names.contains m.1)
  if (found.map Prod.fst).Nodup then some found else none

/-- The fields of a record, which is an object with members of these names, or else an array
of the fields in this order. -/
def fields? (names : List String) : Document → Option (List (String × Document))
  | .object members => known? names members
  | .array items => if items.length ≤ names.length then some (names.zip items) else none
  | _ => none

/-- The fields of a record that may not be written as an array. All of the object is read,
members of other names included. -/
def flatFields? (names : List String) (d : Document) : Option (List (String × Document)) :=
  match d with
  | .object members => if d.readable then known? names members else none
  | _ => none

def required? (name : String) (read : Document → Option α) (fields : List (String × Document)) :
    Option α :=
  (Entries.get? name fields).bind read

def orDefault? (name : String) (default : α) (read : Document → Option α)
    (fields : List (String × Document)) : Option α :=
  match Entries.get? name fields with
  | none => some default
  | some d => read d

def orAbsent? (name : String) (read : Document → Option α) (fields : List (String × Document)) :
    Option (Option α) :=
  orDefault? name none (optional? read) fields

end PropertyGraph.Document
