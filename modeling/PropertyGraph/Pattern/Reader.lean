import PropertyGraph.Pattern.Bracket

namespace PropertyGraph.Pattern

structure Scope where
  flags : Flags
  names : List (List Char)

namespace Flags

/-- Switches the flag with the given letter. Greed has no bearing on whether a text matches. -/
def switch? (f : Flags) (letter : Char) (on : Bool) : Option Flags :=
  match letter with
  | 'i' => some { f with ignoreCase := on }
  | 'm' => some { f with multiLine := on }
  | 's' => some { f with dotAll := on }
  | 'u' => some { f with wide := on }
  | 'x' => some { f with spaced := on }
  | 'R' => some { f with crlf := on }
  | 'U' => some f
  | _ => none

/-- Switches some flags on, and those behind a hyphen off. -/
def switchAll? (f : Flags) : Bool → List Char → Option Flags
  | _, [] => some f
  | _, '-' :: rest => switchAll? f false rest
  | on, letter :: rest => do
    let f ← f.switch? letter on
    switchAll? f on rest

/-- A flag is named once, and a hyphen has a flag behind it. -/
def ofLetters? (f : Flags) (letters : List Char) : Option Flags :=
  if letters.Nodup ∧ letters.getLast? ≠ some '-' then f.switchAll? true letters else none

end Flags

namespace Repetition

/-- A number with white space around it. -/
def number? (cs : List Char) : Option (Nat × List Char) :=
  let cs := cs.dropWhile isWhiteSpace
  match cs.takeWhile Char.isDigit with
  | [] => none
  | digits =>
    let n := digits.foldl (fun n d => n * 10 + (d.toNat - '0'.toNat)) 0
    if n < 0x100000000 then some (n, (cs.dropWhile Char.isDigit).dropWhile isWhiteSpace) else none

def bounds? (f : Flags) (cs : List Char) : Option ((Nat × Option Nat) × List Char) := do
  let (least, rest) ← number? (f.skip cs)
  match rest with
  | '\x7d' :: after => return ((least, some least), after)
  | ',' :: rest =>
    match f.skip rest with
    | '\x7d' :: after => return ((least, none), after)
    | rest =>
      match number? rest with
      | some (most, '\x7d' :: after) =>
        if least ≤ most then return ((least, some most), after) else none
      | _ => none
  | _ => none

/-- A question mark behind a repetition changes only its greed. -/
def dropLazy : List Char → List Char
  | '?' :: rest => rest
  | cs => cs

def read? (f : Flags) (cs : List Char) : Option (Option ((Nat × Option Nat) × List Char)) :=
  match f.skip cs with
  | '?' :: rest => some (some ((0, some 1), dropLazy rest))
  | '*' :: rest => some (some ((0, none), dropLazy rest))
  | '+' :: rest => some (some ((1, none), dropLazy rest))
  | '\x7b' :: rest => (bounds? f rest).map (fun (b, after) => some (b, dropLazy (f.skip after)))
  | _ => some none

def all? (f : Flags) : Nat → Pattern → List Char → Option (Pattern × List Char)
  | 0, p, cs => some (p, cs)
  | fuel + 1, p, cs => do
    match ← read? f cs with
    | none => some (p, cs)
    | some ((least, most), rest) => all? f fuel (.times p least most) rest

end Repetition

/-- How a group starts. A group of flags alone has no body. -/
inductive Opening where
  | body (s : Scope) (rest : List Char)
  | flagsOnly (s : Scope) (rest : List Char)

namespace Opening

def isLetter (c : Char) : Bool := (Category.ofChar c).isLetter || Category.ofChar c == .nl

def isNameChar (c : Char) : Bool :=
  isLetter c || ['_', '.', '[', ']'].contains c || [.nd, .no].contains (Category.ofChar c)

def isName : List Char → Bool
  | [] => false
  | c :: rest => (isLetter c || c == '_') && rest.all isNameChar

/-- A group with a name that no other group has. -/
def named? (s : Scope) (cs : List Char) : Option Opening :=
  let name := cs.takeWhile (· != '>')
  match cs.dropWhile (· != '>') with
  | '>' :: rest =>
    if isName name && !s.names.contains name then some (body { s with names := name :: s.names } rest)
    else none
  | _ => none

/-- A group that sets flags, for its body or else for the rest of the group around it. -/
def flagged? (s : Scope) (cs : List Char) : Option Opening := do
  let isEnd := fun (c : Char) => c == ':' || c == ')'
  let letters := cs.takeWhile (fun c => !isEnd c)
  let f ← s.flags.ofLetters? letters
  match cs.dropWhile (fun c => !isEnd c) with
  | ':' :: rest => return body { s with flags := f } rest
  | ')' :: rest => if letters = [] then none else return flagsOnly { s with flags := f } rest
  | _ => none

/-- The start of a group whose parenthesis comes before the text. There is no looking ahead
and no looking behind. -/
def read? (s : Scope) (cs : List Char) : Option Opening :=
  match s.flags.skip cs with
  | '?' :: 'P' :: '<' :: rest => named? s rest
  | '?' :: '<' :: rest => named? s rest
  | '?' :: rest => flagged? s rest
  | rest => some (body s rest)

end Opening

def ofEscape? (f : Flags) : Escape → Option Pattern
  | .char c => some (.char (f.literal c))
  | .byte c => if f.wide || c.toNat < 0x80 then some (.char (f.literal c)) else none
  | .charClass a => (f.narrow? a).map .char
  | .anchor a => some (.anchor a)

mutual

/-- Alternatives up to a closing parenthesis or the end. Flags that one of them sets stay for
the later ones. -/
def alternatives? : Nat → Scope → List Char → Option (Pattern × Scope × List Char)
  | 0, _, _ => none
  | fuel + 1, s, cs => do
    let (p, s, rest) ← sequence? fuel s cs
    match rest with
    | '|' :: rest =>
      let (q, s, rest) ← alternatives? fuel s rest
      return (.alt p q, s, rest)
    | rest => return (p, s, rest)

def sequence? : Nat → Scope → List Char → Option (Pattern × Scope × List Char)
  | 0, _, _ => none
  | fuel + 1, s, cs =>
    match s.flags.skip cs with
    | [] => some (.empty, s, [])
    | '|' :: rest => some (.empty, s, '|' :: rest)
    | ')' :: rest => some (.empty, s, ')' :: rest)
    | '(' :: rest => do
      match ← Opening.read? s rest with
      | .flagsOnly s rest => sequence? fuel s rest
      | .body inner rest =>
        let (p, inner, rest) ← alternatives? fuel inner rest
        match rest with
        | ')' :: rest => repeated? fuel { s with names := inner.names } p rest
        | _ => none
    | '[' :: rest => do
      let (a, rest) ← Bracket.read? s.flags rest
      repeated? fuel s (.char a) rest
    | '\\' :: rest => do
      let (e, rest) ← Escape.read? s.flags rest
      repeated? fuel s (← ofEscape? s.flags e) rest
    | '.' :: rest =>
      if s.flags.wide then repeated? fuel s (.char s.flags.dot) rest else none
    | '^' :: rest => repeated? fuel s (.anchor s.flags.lineStart) rest
    | '$' :: rest => repeated? fuel s (.anchor s.flags.lineEnd) rest
    | c :: rest =>
      if ['?', '*', '+', '\x7b'].contains c then none
      else repeated? fuel s (.char (s.flags.literal c)) rest

def repeated? : Nat → Scope → Pattern → List Char → Option (Pattern × Scope × List Char)
  | 0, _, _, _ => none
  | fuel + 1, s, p, cs => do
    let (p, rest) ← Repetition.all? s.flags cs.length p cs
    let (q, s, rest) ← sequence? fuel s rest
    return (.seq p q, s, rest)

end

def weight : Pattern → Nat
  | .empty => 0
  | .char a => a.weight
  | .anchor _ => 1
  | .seq p q => p.weight + q.weight
  | .alt p q => p.weight + q.weight + 1
  | .times p least none => (least + 1) * (p.weight + 1)
  | .times p least (some most) => max least most * (p.weight + 1)

def weightLimit : Nat := 10 * 1024 * 1024 / 32

def ofChars? (cs : List Char) : Option Pattern := do
  let (p, _, rest) ← alternatives? (3 * cs.length + 3) ⟨.initial, []⟩ cs
  if rest = [] ∧ p.weight < weightLimit then some p else none

/-- Reads a pattern. A closing parenthesis without an opening one is refused. -/
def parse? (text : String) : Option Pattern := ofChars? text.toList

end PropertyGraph.Pattern
