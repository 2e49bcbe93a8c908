import PropertyGraph.Json.Basic

namespace PropertyGraph.Json

def escapeLetter? (c : Char) : Option Char :=
  if c = '"' then some '"'
  else if c = '\\' then some '\\'
  else if c = '\n' then some 'n'
  else if c = '\r' then some 'r'
  else if c = '\t' then some 't'
  else if c = '\x08' then some 'b'
  else if c = '\x0c' then some 'f'
  else none

/-- Only the quote, the backslash and the controls below 0x20 are escaped. -/
def escape (c : Char) : List Char :=
  match escapeLetter? c with
  | some letter => ['\\', letter]
  | none =>
    if c.toNat < 0x20 then
      ['\\', 'u', '0', '0', Nat.digitChar (c.toNat / 16), Nat.digitChar (c.toNat % 16)]
    else [c]

def quoted (s : String) : List Char := ['"'] ++ s.toList.flatMap escape ++ ['"']

def integerChars (i : Int) : List Char :=
  if i < 0 then '-' :: Nat.toDigits 10 i.natAbs else Nat.toDigits 10 i.natAbs

mutual

/-- Compact text: no blanks, members in the order they stand. -/
def chars : Json → List Char
  | .null => ['n', 'u', 'l', 'l']
  | .bool true => ['t', 'r', 'u', 'e']
  | .bool false => ['f', 'a', 'l', 's', 'e']
  | .integer i => integerChars i
  | .double x => x.text.toList
  | .string s => quoted s
  | .array [] => ['[', ']']
  | .array (item :: rest) => ['['] ++ item.chars ++ itemChars rest ++ [']']
  | .object [] => ['\x7b', '\x7d']
  | .object ((key, value) :: rest) =>
    ['\x7b'] ++ quoted key ++ [':'] ++ value.chars ++ memberChars rest ++ ['\x7d']

def itemChars : List Json → List Char
  | [] => []
  | item :: rest => [','] ++ item.chars ++ itemChars rest

def memberChars : List (String × Json) → List Char
  | [] => []
  | (key, value) :: rest => [','] ++ quoted key ++ [':'] ++ value.chars ++ memberChars rest

end

def text (j : Json) : String := String.ofList j.chars

/-- The one text of a value: compact, with sorted members at every depth. -/
def canonical (j : Json) : String := j.sorted.text

end PropertyGraph.Json
