import PropertyGraph.Json.Numeral
import PropertyGraph.Text.Hex

namespace PropertyGraph

/-- A JSON text taken apart by the grammar alone. Members stand as written, repeated keys
included. Some grammatical text denotes no value: numbers too large to be finite, lone
surrogates, and nesting beyond the limit. It is kept as `unreadable`, since a reader may skip
a member without reading it. -/
inductive Document where
  | unreadable
  | null
  | bool (b : Bool)
  | integer (i : Int)
  | double (x : Double)
  | string (s : String)
  | array (items : List Document)
  | object (members : List (String × Document))

namespace Document

instance : Inhabited Document := ⟨null⟩

def depthLimit : Nat := 127

def isBlank (c : Char) : Bool := c == ' ' || c == '\n' || c == '\t' || c == '\r'

def skipBlanks (cs : List Char) : List Char := cs.dropWhile isBlank

/-- One piece of a string: a character, or a 16-bit code from a numeric escape. -/
inductive Piece where
  | char (c : Char)
  | code (n : Nat)

def code? (a b c d : Char) : Option Nat := do
  let a ← Hex.value? a
  let b ← Hex.value? b
  let c ← Hex.value? c
  let d ← Hex.value? d
  return ((a * 16 + b) * 16 + c) * 16 + d

def unescape? (c : Char) : Option Char :=
  if c = '"' then some '"'
  else if c = '\\' then some '\\'
  else if c = '/' then some '/'
  else if c = 'n' then some '\n'
  else if c = 'r' then some '\r'
  else if c = 't' then some '\t'
  else if c = 'b' then some '\x08'
  else if c = 'f' then some '\x0c'
  else none

/-- The pieces of a string up to its closing quote, and the text behind the quote. -/
def pieces : List Char → Option (List Piece × List Char)
  | [] => none
  | '"' :: rest => some ([], rest)
  | '\\' :: 'u' :: a :: b :: c :: d :: rest => do
    let n ← code? a b c d
    let (tail, after) ← pieces rest
    return (.code n :: tail, after)
  | '\\' :: letter :: rest => do
    let c ← unescape? letter
    let (tail, after) ← pieces rest
    return (.char c :: tail, after)
  | c :: rest =>
    if c.toNat < 0x20 then none
    else do
      let (tail, after) ← pieces rest
      return (.char c :: tail, after)

def isHighSurrogate (n : Nat) : Bool := 0xD800 ≤ n && n < 0xDC00

def isLowSurrogate (n : Nat) : Bool := 0xDC00 ≤ n && n < 0xE000

/-- The characters that the pieces denote. A surrogate counts only as half of a pair. -/
def characters? : List Piece → Option (List Char)
  | [] => some []
  | .char c :: rest => (characters? rest).map (c :: ·)
  | .code n :: .code m :: rest =>
    if isHighSurrogate n then
      if isLowSurrogate m then
        let c := Char.ofNat (0x10000 + (n - 0xD800) * 0x400 + (m - 0xDC00))
        (characters? rest).map (c :: ·)
      else none
    else if isLowSurrogate n then none
    else (characters? (.code m :: rest)).map (Char.ofNat n :: ·)
  | .code n :: rest =>
    if isHighSurrogate n || isLowSurrogate n then none
    else (characters? rest).map (Char.ofNat n :: ·)

def isDigit (c : Char) : Bool := '0' ≤ c && c ≤ '9'

/-- At least one digit, and the text behind the digits. -/
def digits? (cs : List Char) : Option (List Char × List Char) :=
  match cs.takeWhile isDigit with
  | [] => none
  | ds => some (ds, cs.dropWhile isDigit)

/-- Digits without a superfluous leading zero. -/
def whole? (cs : List Char) : Option (List Char × List Char) := do
  let (ds, rest) ← digits? cs
  if ds.length ≠ 1 && ds.head? == some '0' then none else some (ds, rest)

def fraction? : List Char → Option (Option (List Char) × List Char)
  | '.' :: rest => do
    let (ds, after) ← digits? rest
    return (some ds, after)
  | cs => some (none, cs)

def power? : List Char → Option ((Bool × List Char) × List Char)
  | '-' :: rest => (digits? rest).map (fun (ds, after) => ((true, ds), after))
  | '+' :: rest => (digits? rest).map (fun (ds, after) => ((false, ds), after))
  | cs => (digits? cs).map (fun (ds, after) => ((false, ds), after))

def exponent? : List Char → Option (Option (Bool × List Char) × List Char)
  | 'e' :: rest => (power? rest).map (fun (p, after) => (some p, after))
  | 'E' :: rest => (power? rest).map (fun (p, after) => (some p, after))
  | cs => some (none, cs)

def unsigned? (negative : Bool) (cs : List Char) : Option (Json.Numeral × List Char) := do
  let (whole, rest) ← whole? cs
  let (fraction, rest) ← fraction? rest
  let (exponent, rest) ← exponent? rest
  return (⟨negative, whole, fraction, exponent⟩, rest)

def numeral? : List Char → Option (Json.Numeral × List Char)
  | '-' :: rest => unsigned? true rest
  | cs => unsigned? false cs

def ofNumeral (n : Json.Numeral) : Document :=
  match n.value? with
  | some (.integer i) => .integer i
  | some (.double x) => .double x
  | _ => .unreadable

def ofPieces (ps : List Piece) : Document :=
  match characters? ps with
  | some cs => .string (String.ofList cs)
  | none => .unreadable

/-- A member as it was read; its key may denote no text. -/
abbrev RawMember := List Piece × Document

/-- An object is readable if all its keys are. -/
def ofMembers (members : List RawMember) : Document :=
  match members.mapM (fun m => (characters? m.1).map (fun cs => (String.ofList cs, m.2))) with
  | some ms => .object ms
  | none => .unreadable

/-- A container that stands inside `depth` others. -/
def nested (depth : Nat) (d : Document) : Document :=
  if depth < depthLimit then d else .unreadable

mutual

/-- Reads one value that starts at the first character. The fuel bounds the number of values
and separators that are read. -/
def value? : Nat → Nat → List Char → Option (Document × List Char)
  | 0, _, _ => none
  | fuel + 1, depth, cs =>
    match cs with
    | 'n' :: 'u' :: 'l' :: 'l' :: rest => some (.null, rest)
    | 't' :: 'r' :: 'u' :: 'e' :: rest => some (.bool true, rest)
    | 'f' :: 'a' :: 'l' :: 's' :: 'e' :: rest => some (.bool false, rest)
    | '"' :: rest => (pieces rest).map (fun (ps, after) => (ofPieces ps, after))
    | '[' :: rest =>
      match skipBlanks rest with
      | ']' :: after => some (nested depth (.array []), after)
      | inner => (items? fuel (depth + 1) inner).map
          (fun (items, after) => (nested depth (.array items), after))
    | '\x7b' :: rest =>
      match skipBlanks rest with
      | '\x7d' :: after => some (nested depth (.object []), after)
      | inner => (members? fuel (depth + 1) inner).map
          (fun (members, after) => (nested depth (ofMembers members), after))
    | cs => (numeral? cs).map (fun (n, after) => (ofNumeral n, after))

/-- The items of an array up to its closing bracket; there is at least one. -/
def items? : Nat → Nat → List Char → Option (List Document × List Char)
  | 0, _, _ => none
  | fuel + 1, depth, cs => do
    let (item, rest) ← value? fuel depth cs
    match skipBlanks rest with
    | ']' :: after => return ([item], after)
    | ',' :: more =>
      let (items, after) ← items? fuel depth (skipBlanks more)
      return (item :: items, after)
    | _ => none

/-- The members of an object up to its closing brace; there is at least one. -/
def members? : Nat → Nat → List Char → Option (List RawMember × List Char)
  | 0, _, _ => none
  | fuel + 1, depth, cs =>
    match cs with
    | '"' :: rest => do
      let (key, rest) ← pieces rest
      match skipBlanks rest with
      | ':' :: rest =>
        let (value, rest) ← value? fuel depth (skipBlanks rest)
        match skipBlanks rest with
        | '\x7d' :: after => return ([(key, value)], after)
        | ',' :: more =>
          let (members, after) ← members? fuel depth (skipBlanks more)
          return ((key, value) :: members, after)
        | _ => none
      | _ => none
    | _ => none

end

def ofChars? (cs : List Char) : Option Document := do
  let (d, rest) ← value? (cs.length + 1) 0 (skipBlanks cs)
  match skipBlanks rest with
  | [] => some d
  | _ => none

/-- Strict JSON: one value with blanks around it, and nothing else. -/
def parse? (text : String) : Option Document := ofChars? text.toList

mutual

/-- The value that a document denotes. Of repeated keys the last counts, and the members come
by ascending key. -/
def json? : Document → Option Json
  | .unreadable => none
  | .null => some .null
  | .bool b => some (.bool b)
  | .integer i => some (.integer i)
  | .double x => some (.double x)
  | .string s => some (.string s)
  | .array items => (itemsJson? items).map .array
  | .object members => (membersJson? members).map (fun ms => .object (SortedEntries.ofList ms))

def itemsJson? : List Document → Option (List Json)
  | [] => some []
  | item :: rest => do
    let value ← item.json?
    let values ← itemsJson? rest
    return value :: values

def membersJson? : List (String × Document) → Option (List (String × Json))
  | [] => some []
  | (key, value) :: rest => do
    let value ← value.json?
    let values ← membersJson? rest
    return (key, value) :: values

end

mutual

def ofJson : Json → Document
  | .null => .null
  | .bool b => .bool b
  | .integer i => .integer i
  | .double x => .double x
  | .string s => .string s
  | .array items => .array (ofItems items)
  | .object members => .object (ofEntries members)

def ofItems : List Json → List Document
  | [] => []
  | item :: rest => ofJson item :: ofItems rest

def ofEntries : List (String × Json) → List (String × Document)
  | [] => []
  | (key, value) :: rest => (key, ofJson value) :: ofEntries rest

end

end Document

namespace Json

def parse? (text : String) : Option Json := (Document.parse? text).bind Document.json?

end Json

end PropertyGraph
