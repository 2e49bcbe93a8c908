import PropertyGraph.Pattern.Basic
import PropertyGraph.Text.Hex

namespace PropertyGraph.Pattern

structure Flags where
  ignoreCase : Bool
  multiLine : Bool
  dotAll : Bool
  /-- Whether classes range over all characters, and not over ASCII only. -/
  wide : Bool
  /-- Whether white space and comments are skipped. -/
  spaced : Bool
  crlf : Bool

namespace Flags

def initial : Flags := ⟨false, false, false, true, false, false⟩

/-- The text behind white space and comments. A comment goes from a number sign to the end of
its line. -/
def skipBlanks : Bool → List Char → List Char
  | _, [] => []
  | true, c :: rest => skipBlanks (c != '\n') rest
  | false, c :: rest =>
    if c = '#' then skipBlanks true rest
    else if isWhiteSpace c then skipBlanks false rest
    else c :: rest

def skip (f : Flags) (cs : List Char) : List Char := if f.spaced then skipBlanks false cs else cs

/-- A class as the flags have it. Without wide classes, one that reaches beyond ASCII is
refused. -/
def narrow? (f : Flags) (a : CharClass) : Option CharClass :=
  if f.wide then some a
  else if (List.range 128).any (fun n => a.contains (Char.ofNat (128 + n))) then none
  else some (.inter a (.range 0 0x7F))

def fold (f : Flags) (a : CharClass) : CharClass := if f.ignoreCase then .anyCase a else a

def literal (f : Flags) (c : Char) : CharClass :=
  if f.wide then f.fold (.single c)
  else if c.toNat < 0x80 then .inter (f.fold (.single c)) (.range 0 0x7F)
  else .single c

def dot (f : Flags) : CharClass :=
  if f.dotAll then .any
  else if f.crlf then .compl (.ofChars ['\r', '\n'])
  else .compl (.single '\n')

def lineStart (f : Flags) : Anchor :=
  if !f.multiLine then .textStart else if f.crlf then .lineStartCRLF else .lineStart

def lineEnd (f : Flags) : Anchor :=
  if !f.multiLine then .textEnd else if f.crlf then .lineEndCRLF else .lineEnd

end Flags

/-- What an escape stands for. A byte escape is a character given by two digits. -/
inductive Escape where
  | char (c : Char)
  | byte (c : Char)
  | charClass (a : CharClass)
  | anchor (a : Anchor)

namespace Escape

def special : List Char :=
  ['\\', '.', '+', '*', '?', '(', ')', '|', '[', ']', '\x7b', '\x7d', '^', '$', '#', '&', '-', '~']

/-- Whether a backslash before the character means the character itself. -/
def isPlain (c : Char) : Bool :=
  special.contains c || (c.toNat < 0x80 && !c.isAlphanum && c != '<' && c != '>')

def control? (c : Char) : Option Char :=
  match c with
  | 'a' => some '\x07'
  | 'f' => some '\x0c'
  | 't' => some '\t'
  | 'n' => some '\n'
  | 'r' => some '\r'
  | 'v' => some '\x0b'
  | _ => none

def anchor? (f : Flags) (c : Char) : Option Anchor :=
  match c with
  | 'A' => some .textStart
  | 'z' => some .textEnd
  | 'b' => some (.wordBoundary (!f.wide))
  | 'B' => some (.notWordBoundary (!f.wide))
  | '<' => some (.wordStart (!f.wide))
  | '>' => some (.wordEnd (!f.wide))
  | _ => none

def boundaryNamed? (f : Flags) (name : String) : Option Anchor :=
  match name with
  | "start" => some (.wordStart (!f.wide))
  | "end" => some (.wordEnd (!f.wide))
  | "start-half" => some (.wordStartHalf (!f.wide))
  | "end-half" => some (.wordEndHalf (!f.wide))
  | _ => none

/-- The name in braces behind a word boundary. Braces around anything but letters and hyphens
are left for a repetition. -/
def boundary? (f : Flags) (cs : List Char) : Option (Anchor × List Char) :=
  let isNameChar := fun (c : Char) => c.isAlpha || c == '-'
  match cs with
  | '\x7b' :: rest =>
    let inner := f.skip rest
    match inner.takeWhile isNameChar, f.skip (inner.dropWhile isNameChar) with
    | [], [] => none
    | [], _ => some (.wordBoundary (!f.wide), cs)
    | name, '\x7d' :: after => (boundaryNamed? f (String.ofList name)).map (fun a => (a, after))
    | _, _ => none
  | cs => some (.wordBoundary (!f.wide), cs)

def ofDigits? (digits : List Char) : Option Char := do
  let values ← digits.mapM Hex.value?
  let n := values.foldl (fun n d => n * 16 + d) 0
  if values = [] ∨ ¬ n.isValidChar then none else some (Char.ofNat n)

/-- A character given by its code, in braces or with the given number of digits. -/
def coded? (digits : Nat) (cs : List Char) : Option (Escape × List Char) :=
  match cs with
  | '\x7b' :: rest =>
    match rest.dropWhile (· != '\x7d') with
    | '\x7d' :: after =>
      (ofDigits? (rest.takeWhile (· != '\x7d'))).map (fun c => (.char c, after))
    | _ => none
  | cs =>
    if cs.length < digits then none
    else (ofDigits? (cs.take digits)).map (fun c =>
      (if digits = 2 then .byte c else .char c, cs.drop digits))

def property? (text : List Char) : Option CharClass :=
  let name := text.takeWhile (fun c => c != '=' && c != ':' && c != '!')
  match text.dropWhile (fun c => c != '=' && c != ':' && c != '!') with
  | [] => CharClass.ofName? name
  | '!' :: '=' :: value => (CharClass.ofNameAndValue? name value).map .compl
  | '=' :: value => CharClass.ofNameAndValue? name value
  | ':' :: value => CharClass.ofNameAndValue? name value
  | _ => none

def propertyClass? (f : Flags) (negated : Bool) (cs : List Char) :
    Option (Escape × List Char) := do
  if !f.wide then none
  let (a, after) ← match cs with
    | '\x7b' :: rest =>
      match rest.dropWhile (· != '\x7d') with
      | '\x7d' :: after => (property? (rest.takeWhile (· != '\x7d'))).map (fun a => (a, after))
      | _ => none
    | c :: rest => (CharClass.ofName? [c]).map (fun a => (a, rest))
    | [] => none
  return (.charClass (if negated then .compl (f.fold a) else f.fold a), after)

/-- The classes that have a letter, a capital one for the complement. -/
def shortClass? (f : Flags) (c : Char) : Option CharClass :=
  let digits := if f.wide then .category .nd else .asciiDigit
  let blanks := if f.wide then .whiteSpace else .asciiWhiteSpace
  let words := if f.wide then .word else .asciiWord
  match c with
  | 'd' => some digits
  | 'D' => some (.compl digits)
  | 's' => some blanks
  | 'S' => some (.compl blanks)
  | 'w' => some words
  | 'W' => some (.compl words)
  | _ => none

/-- The escape whose backslash comes before the text. Digits are no escapes: there are no
references back. -/
def read? (f : Flags) : List Char → Option (Escape × List Char)
  | [] => none
  | 'x' :: rest => coded? 2 rest
  | 'u' :: rest => coded? 4 rest
  | 'U' :: rest => coded? 8 rest
  | 'p' :: rest => propertyClass? f false rest
  | 'P' :: rest => propertyClass? f true rest
  | 'b' :: rest => (boundary? f rest).map (fun (a, after) => (.anchor a, after))
  | c :: rest =>
    if isPlain c then some (.char c, rest)
    else match control? c, anchor? f c, shortClass? f c with
      | some c, _, _ => some (.char c, rest)
      | none, some a, _ => some (.anchor a, rest)
      | none, none, some a => some (.charClass a, rest)
      | none, none, none => none

end Escape

end PropertyGraph.Pattern
