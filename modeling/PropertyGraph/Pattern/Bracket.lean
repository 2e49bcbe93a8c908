import PropertyGraph.Pattern.Escape

namespace PropertyGraph.Pattern.Bracket

/-- The operators between the parts of a class in brackets, which group to the left. -/
inductive Operator where
  | inter
  | diff
  | symmDiff

def Operator.combine (f : Flags) (op : Operator) (a b : CharClass) : CharClass :=
  match op with
  | inter => .inter (f.fold a) (f.fold b)
  | diff => .diff (f.fold a) (f.fold b)
  | symmDiff => .symmDiff (f.fold a) (f.fold b)

/-- A class that waits for its right operand. -/
abbrev Pending := Option (Operator × CharClass)

def finish (f : Flags) (pending : Pending) (a : CharClass) : CharClass :=
  match pending with
  | none => a
  | some (op, left) => op.combine f left a

def named? (f : Flags) (cs : List Char) : Option (CharClass × List Char) := do
  let (negated, cs) ← match cs with
    | '[' :: ':' :: '^' :: rest => some (true, rest)
    | '[' :: ':' :: rest => some (false, rest)
    | _ => none
  let after ← match cs.dropWhile (· != ':') with
    | ':' :: ']' :: after => some after
    | _ => none
  let a ← CharClass.ofAsciiName? (String.ofList (cs.takeWhile (· != ':')))
  return (if negated then .compl (f.fold a) else f.fold a, after)

/-- A character of a class. Without wide classes it is one of ASCII, or it is given as a byte. -/
def character? (f : Flags) : Escape → Option Char
  | .char c => if f.wide || c.toNat < 0x80 then some c else none
  | .byte c => some c
  | _ => none

def primitive? (f : Flags) : List Char → Option (Escape × List Char)
  | [] => none
  | '\\' :: rest => Escape.read? f rest
  | c :: rest => some (.char c, rest)

def ofEscape? (f : Flags) : Escape → Option CharClass
  | .charClass a => some a
  | .anchor _ => none
  | e => (character? f e).map .single

/-- A range of characters, or a single part. A hyphen before the closing bracket or before
another hyphen makes no range. -/
def part? (f : Flags) (cs : List Char) : Option (CharClass × List Char) := do
  let (first, rest) ← primitive? f cs
  let single := (ofEscape? f first).map (fun a => (a, f.skip rest))
  match f.skip rest with
  | '-' :: more =>
    match f.skip more with
    | ']' :: _ => single
    | '-' :: _ => single
    | more =>
      let (last, after) ← primitive? f more
      let low ← character? f first
      let high ← character? f last
      if low.toNat ≤ high.toNat then return (.range low.toNat high.toNat, after) else none
  | [] => none
  | _ => single

/-- Leading hyphens stand for themselves, and so does a closing bracket in the first place. -/
def opening (f : Flags) (cs : List Char) : CharClass × List Char :=
  match cs with
  | ']' :: rest => (.single ']', rest)
  | '-' :: rest => (.single '-', f.skip (rest.dropWhile (fun c => c = '-')))
  | cs => (.none, cs)

mutual

def class? : Nat → Flags → List Char → Option (CharClass × List Char)
  | 0, _, _ => none
  | fuel + 1, f, cs => do
    let (negated, cs) := match f.skip cs with
      | '^' :: rest => (true, f.skip rest)
      | cs => (false, cs)
    let (a, cs) := opening f cs
    let (a, after) ← parts? fuel f none a cs
    return (if negated then .compl (f.fold a) else f.fold a, after)

def parts? : Nat → Flags → Pending → CharClass → List Char → Option (CharClass × List Char)
  | 0, _, _, _, _ => none
  | fuel + 1, f, pending, a, cs =>
    match f.skip cs with
    | [] => none
    | ']' :: after => some (finish f pending a, after)
    | '&' :: '&' :: rest => parts? fuel f (some (.inter, finish f pending a)) .none rest
    | '-' :: '-' :: rest => parts? fuel f (some (.diff, finish f pending a)) .none rest
    | '~' :: '~' :: rest => parts? fuel f (some (.symmDiff, finish f pending a)) .none rest
    | '[' :: rest => do
      let (b, rest) ← named? f ('[' :: rest) <|> class? fuel f rest
      parts? fuel f pending (.union a b) rest
    | cs => do
      let (b, rest) ← part? f cs
      parts? fuel f pending (.union a b) rest

end

def read? (f : Flags) (cs : List Char) : Option (CharClass × List Char) := do
  let (a, after) ← class? (2 * cs.length + 2) f cs
  return (← f.narrow? a, after)

end PropertyGraph.Pattern.Bracket
