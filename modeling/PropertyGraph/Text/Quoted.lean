import PropertyGraph.Pattern.Category

namespace PropertyGraph.Text

/-- Whether a character may stand in a quoted text as it is. Controls, unassigned codes, blanks
other than the space, and marks that would join the character before them may not. -/
def isPrintable (c : Char) : Bool :=
  c == ' ' || !([.cc, .cf, .cs, .co, .cn, .zl, .zp, .zs, .mn, .me] : List Category).contains
    (Category.ofChar c)

def codeDigits (c : Char) : List Char := (Nat.toDigits 16 c.toNat)

def quotedChar (c : Char) : List Char :=
  if c = '"' then ['\\', '"']
  else if c = '\\' then ['\\', '\\']
  else if c = '\n' then ['\\', 'n']
  else if c = '\r' then ['\\', 'r']
  else if c = '\t' then ['\\', 't']
  else if c = '\x00' then ['\\', '0']
  else if isPrintable c then [c]
  else ['\\', 'u', '\x7b'] ++ codeDigits c ++ ['\x7d']

/-- A text between quotes. Quotes, backslashes and unprintable characters are escaped. -/
def quoted (s : String) : String :=
  String.ofList (['"'] ++ s.toList.flatMap quotedChar ++ ['"'])

def bracketed (items : List String) : String := "[" ++ ", ".intercalate items ++ "]"

def labelled (name : String) (fields : List (String × String)) : String :=
  let body := ", ".intercalate (fields.map (fun f => f.1 ++ ": " ++ f.2))
  name ++ " \x7b " ++ body ++ " \x7d"

def optional {α : Type} (text : α → String) : Option α → String
  | none => "None"
  | some a => "Some(" ++ text a ++ ")"

def flag (b : Bool) : String := if b then "true" else "false"

end PropertyGraph.Text
