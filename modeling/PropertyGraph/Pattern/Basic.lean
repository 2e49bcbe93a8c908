import PropertyGraph.Pattern.CharClass

namespace PropertyGraph

/-- A condition on the place between two characters. -/
inductive Anchor where
  | textStart
  | textEnd
  | lineStart
  | lineEnd
  /-- Line bounds where a carriage return, alone or before a line feed, also ends a line. -/
  | lineStartCRLF
  | lineEndCRLF
  | wordBoundary (ascii : Bool)
  | notWordBoundary (ascii : Bool)
  | wordStart (ascii : Bool)
  | wordEnd (ascii : Bool)
  | wordStartHalf (ascii : Bool)
  | wordEndHalf (ascii : Bool)
deriving DecidableEq

namespace Anchor

def inWord (ascii : Bool) (c : Option Char) : Bool :=
  c.any (if ascii then isAsciiWordChar else isWordChar)

/-- Whether the condition holds between the two characters; at an end of the text there is no
character. -/
def holds (before after : Option Char) : Anchor → Bool
  | textStart => before.isNone
  | textEnd => after.isNone
  | lineStart => before.isNone || before == some '\n'
  | lineEnd => after.isNone || after == some '\n'
  | lineStartCRLF =>
    before.isNone || before == some '\n' || (before == some '\r' && after != some '\n')
  | lineEndCRLF =>
    after.isNone || after == some '\r' || (after == some '\n' && before != some '\r')
  | wordBoundary ascii => inWord ascii before != inWord ascii after
  | notWordBoundary ascii => inWord ascii before == inWord ascii after
  | wordStart ascii => !inWord ascii before && inWord ascii after
  | wordEnd ascii => inWord ascii before && !inWord ascii after
  | wordStartHalf ascii => !inWord ascii before
  | wordEndHalf ascii => !inWord ascii after

end Anchor

inductive Pattern where
  | empty
  | char (a : CharClass)
  | anchor (a : Anchor)
  | seq (p q : Pattern)
  | alt (p q : Pattern)
  /-- The pattern at least `min` times and, if there is a `max`, at most so often. -/
  | times (p : Pattern) (min : Nat) (max : Option Nat)
deriving DecidableEq

namespace Pattern

/-- Whether the pattern matches the empty text between the two characters. -/
def nullable (before after : Option Char) : Pattern → Bool
  | empty => true
  | char _ => false
  | anchor a => a.holds before after
  | seq p q => p.nullable before after && q.nullable before after
  | alt p q => p.nullable before after || q.nullable before after
  | times p min _ => min == 0 || p.nullable before after

def andThen (p q : Pattern) : Pattern :=
  match p with
  | empty => q
  | p => seq p q

/-- The patterns for the rest of the text once the pattern has taken the character `c`, which
follows `before`. A repetition whose body can be empty here owes no further round. -/
def advance (before : Option Char) (c : Char) : Pattern → List Pattern
  | empty => []
  | char a => if a.contains c then [empty] else []
  | anchor _ => []
  | seq p q =>
    (p.advance before c).map (andThen · q)
      ++ (if p.nullable before (some c) then q.advance before c else [])
  | alt p q => p.advance before c ++ q.advance before c
  | times p min max =>
    if max = some 0 then []
    else
      let owed := if p.nullable before (some c) then 0 else min - 1
      (p.advance before c).map (andThen · (times p owed (max.map (· - 1))))

/-- Whether a match can still be completed, the given states being under way and a new one
starting at each place. -/
def found (start : Pattern) : Option Char → List Pattern → List Char → Bool
  | before, states, [] => (start :: states).any (nullable before none)
  | before, states, c :: rest =>
    let all := start :: states
    if all.any (nullable before (some c)) then true
    else found start (some c) (all.flatMap (advance before c)).eraseDups rest

def occursIn (p : Pattern) (text : String) : Bool := found p none [] text.toList

end Pattern

end PropertyGraph
