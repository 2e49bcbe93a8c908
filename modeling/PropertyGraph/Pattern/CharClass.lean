import PropertyGraph.Pattern.CaseFolding
import PropertyGraph.Pattern.Category

namespace PropertyGraph

def isWhiteSpace (c : Char) : Bool :=
  let n := c.toNat
  (9 ≤ n && n ≤ 13) || n == 0x20 || n == 0x85 || n == 0xA0 || n == 0x1680
    || (0x2000 ≤ n && n ≤ 0x200A) || n == 0x2028 || n == 0x2029 || n == 0x202F || n == 0x205F
    || n == 0x3000

/-- Circled and squared letters count as alphabetic although they are symbols. -/
def isEnclosedLetter (c : Char) : Bool :=
  let n := c.toNat
  (0x24B6 ≤ n && n ≤ 0x24E9) || (0x1F130 ≤ n && n ≤ 0x1F149) || (0x1F150 ≤ n && n ≤ 0x1F169)
    || (0x1F170 ≤ n && n ≤ 0x1F189)

/-- The characters that words are made of: letters, marks, digits, connecting punctuation and
the two joiners. -/
def isWordChar (c : Char) : Bool :=
  let k := Category.ofChar c
  k.isLetter || k.isMark || k == .nl || k == .nd || k == .pc || isEnclosedLetter c
    || c.toNat == 0x200C || c.toNat == 0x200D

def isAsciiWordChar (c : Char) : Bool := c.isAlphanum || c == '_'

inductive CharClass where
  | range (first last : Nat)
  | category (k : Category)
  | word
  | whiteSpace
  | compl (a : CharClass)
  | union (a b : CharClass)
  | inter (a b : CharClass)
  | diff (a b : CharClass)
  | symmDiff (a b : CharClass)
  /-- All characters that differ from a member at most in case. -/
  | anyCase (a : CharClass)
deriving DecidableEq

namespace CharClass

def contains : CharClass → Char → Bool
  | range first last, c => first ≤ c.toNat && c.toNat ≤ last
  | category k, c => Category.ofChar c == k
  | word, c => isWordChar c
  | whiteSpace, c => isWhiteSpace c
  | compl a, c => !a.contains c
  | union a b, c => a.contains c || b.contains c
  | inter a b, c => a.contains c && b.contains c
  | diff a b, c => a.contains c && !b.contains c
  | symmDiff a b, c => a.contains c != b.contains c
  | anyCase a, c => (CaseFolding.variants c.toNat).any (fun n => a.contains (Char.ofNat n))

def weight : CharClass → Nat
  | range _ last => if last < 0x80 then 1 else 4
  | category _ => 300
  | word => 1500
  | whiteSpace => 10
  | compl a => weight a + 10
  | union a b => weight a + weight b
  | inter a b => weight a + weight b
  | diff a b => weight a + weight b
  | symmDiff a b => weight a + weight b
  | anyCase a => 2 * weight a

def none : CharClass := range 1 0

def any : CharClass := range 0 0x10FFFF

def single (c : Char) : CharClass := range c.toNat c.toNat

def ofRanges (ranges : List (Nat × Nat)) : CharClass :=
  ranges.foldr (fun r a => union (range r.1 r.2) a) none

def ofChars (cs : List Char) : CharClass := ofRanges (cs.map (fun c => (c.toNat, c.toNat)))

def ofCategories (ks : List Category) : CharClass :=
  ks.foldr (fun k a => union (category k) a) none

def asciiDigit : CharClass := range 0x30 0x39

def asciiUpper : CharClass := range 0x41 0x5A

def asciiLower : CharClass := range 0x61 0x7A

def asciiLetter : CharClass := union asciiUpper asciiLower

def asciiWord : CharClass := union (union asciiLetter asciiDigit) (single '_')

def asciiWhiteSpace : CharClass := union (range 9 13) (single ' ')

def ofAsciiName? (name : String) : Option CharClass :=
  match name with
  | "alnum" => some (union asciiLetter asciiDigit)
  | "alpha" => some asciiLetter
  | "ascii" => some (range 0 0x7F)
  | "blank" => some (ofChars ['\t', ' '])
  | "cntrl" => some (ofRanges [(0, 0x1F), (0x7F, 0x7F)])
  | "digit" => some asciiDigit
  | "graph" => some (range 0x21 0x7E)
  | "lower" => some asciiLower
  | "print" => some (range 0x20 0x7E)
  | "punct" => some (ofRanges [(0x21, 0x2F), (0x3A, 0x40), (0x5B, 0x60), (0x7B, 0x7E)])
  | "space" => some asciiWhiteSpace
  | "upper" => some asciiUpper
  | "word" => some asciiWord
  | "xdigit" => some (ofRanges [(0x30, 0x39), (0x41, 0x46), (0x61, 0x66)])
  | _ => Option.none

def letters : List Category := [.lu, .ll, .lt, .lm, .lo]

def categoriesNamed? (name : String) : Option (List Category) :=
  match name with
  | "l" | "letter" => some letters
  | "lc" | "casedletter" => some [.lu, .ll, .lt]
  | "lu" | "uppercaseletter" => some [.lu]
  | "ll" | "lowercaseletter" => some [.ll]
  | "lt" | "titlecaseletter" => some [.lt]
  | "lm" | "modifierletter" => some [.lm]
  | "lo" | "otherletter" => some [.lo]
  | "m" | "mark" | "combiningmark" => some [.mn, .mc, .me]
  | "mn" | "nonspacingmark" => some [.mn]
  | "mc" | "spacingmark" => some [.mc]
  | "me" | "enclosingmark" => some [.me]
  | "n" | "number" => some [.nd, .nl, .no]
  | "nd" | "decimalnumber" | "digit" => some [.nd]
  | "nl" | "letternumber" => some [.nl]
  | "no" | "othernumber" => some [.no]
  | "p" | "punctuation" | "punct" => some [.pc, .pd, .ps, .pe, .pi, .pf, .po]
  | "pc" | "connectorpunctuation" => some [.pc]
  | "pd" | "dashpunctuation" => some [.pd]
  | "ps" | "openpunctuation" => some [.ps]
  | "pe" | "closepunctuation" => some [.pe]
  | "pi" | "initialpunctuation" => some [.pi]
  | "pf" | "finalpunctuation" => some [.pf]
  | "po" | "otherpunctuation" => some [.po]
  | "s" | "symbol" => some [.sm, .sc, .sk, .so]
  | "sm" | "mathsymbol" => some [.sm]
  | "sc" | "currencysymbol" => some [.sc]
  | "sk" | "modifiersymbol" => some [.sk]
  | "so" | "othersymbol" => some [.so]
  | "z" | "separator" => some [.zs, .zl, .zp]
  | "zs" | "spaceseparator" => some [.zs]
  | "zl" | "lineseparator" => some [.zl]
  | "zp" | "paragraphseparator" => some [.zp]
  | "c" | "other" => some [.cc, .cf, .cs, .co, .cn]
  | "cc" | "control" | "cntrl" => some [.cc]
  | "cf" | "format" => some [.cf]
  | "co" | "privateuse" => some [.co]
  | "cn" | "unassigned" => some [.cn]
  | _ => Option.none

/-- The code points of the scripts that are known by name; characters shared by several scripts
are left out. -/
def scriptRanges? (name : String) : Option (List (Nat × Nat)) :=
  match name with
  | "latin" | "latn" => some [(0x41, 0x5A), (0x61, 0x7A), (0xAA, 0xAA), (0xBA, 0xBA),
      (0xC0, 0xD6), (0xD8, 0xF6), (0xF8, 0x2B8), (0x2E0, 0x2E4), (0x1D00, 0x1D25),
      (0x1D2C, 0x1D5C), (0x1D62, 0x1D65), (0x1D6B, 0x1D77), (0x1D79, 0x1DBE), (0x1E00, 0x1EFF),
      (0x2071, 0x2071), (0x207F, 0x207F), (0x2090, 0x209C), (0x212A, 0x212B), (0x2132, 0x2132),
      (0x214E, 0x214E), (0x2160, 0x2188), (0x2C60, 0x2C7F), (0xA722, 0xA787), (0xA78B, 0xA7CA),
      (0xA7F2, 0xA7FF), (0xAB30, 0xAB5A), (0xAB5C, 0xAB64), (0xFB00, 0xFB06), (0xFF21, 0xFF3A),
      (0xFF41, 0xFF5A)]
  | "greek" | "grek" => some [(0x370, 0x373), (0x375, 0x377), (0x37A, 0x37D), (0x37F, 0x37F),
      (0x384, 0x384), (0x386, 0x386), (0x388, 0x38A), (0x38C, 0x38C), (0x38E, 0x3A1),
      (0x3A3, 0x3E1), (0x3F0, 0x3FF), (0x1D26, 0x1D2A), (0x1D5D, 0x1D61), (0x1D66, 0x1D6A),
      (0x1DBF, 0x1DBF), (0x1F00, 0x1F15), (0x1F18, 0x1F1D), (0x1F20, 0x1F45), (0x1F48, 0x1F4D),
      (0x1F50, 0x1F57), (0x1F59, 0x1F59), (0x1F5B, 0x1F5B), (0x1F5D, 0x1F5D), (0x1F5F, 0x1F7D),
      (0x1F80, 0x1FB4), (0x1FB6, 0x1FC4), (0x1FC6, 0x1FD3), (0x1FD6, 0x1FDB), (0x1FDD, 0x1FEF),
      (0x1FF2, 0x1FF4), (0x1FF6, 0x1FFE), (0x2126, 0x2126), (0xAB65, 0xAB65)]
  | "cyrillic" | "cyrl" => some [(0x400, 0x484), (0x487, 0x52F), (0x1C80, 0x1C88),
      (0x1D2B, 0x1D2B), (0x1D78, 0x1D78), (0x2DE0, 0x2DFF), (0xA640, 0xA69F), (0xFE2E, 0xFE2F)]
  | "armenian" | "armn" => some [(0x531, 0x556), (0x559, 0x58A), (0x58D, 0x58F),
      (0xFB13, 0xFB17)]
  | "hebrew" | "hebr" => some [(0x591, 0x5C7), (0x5D0, 0x5EA), (0x5EF, 0x5F4), (0xFB1D, 0xFB36),
      (0xFB38, 0xFB3C), (0xFB3E, 0xFB3E), (0xFB40, 0xFB41), (0xFB43, 0xFB44), (0xFB46, 0xFB4F)]
  | "thai" => some [(0xE01, 0xE3A), (0xE40, 0xE5B)]
  | "hangul" | "hang" => some [(0x1100, 0x11FF), (0x302E, 0x302F), (0x3131, 0x318E),
      (0x3200, 0x321E), (0x3260, 0x327E), (0xA960, 0xA97C), (0xAC00, 0xD7A3), (0xD7B0, 0xD7C6),
      (0xD7CB, 0xD7FB), (0xFFA0, 0xFFBE), (0xFFC2, 0xFFC7), (0xFFCA, 0xFFCF), (0xFFD2, 0xFFD7),
      (0xFFDA, 0xFFDC)]
  | "hiragana" | "hira" => some [(0x3041, 0x3096), (0x309D, 0x309F), (0x1B001, 0x1B11F),
      (0x1B150, 0x1B152), (0x1F200, 0x1F200)]
  | "katakana" | "kana" => some [(0x30A1, 0x30FA), (0x30FD, 0x30FF), (0x31F0, 0x31FF),
      (0x32D0, 0x32FE), (0x3300, 0x3357), (0xFF66, 0xFF6F), (0xFF71, 0xFF9D)]
  | "han" | "hani" => some [(0x2E80, 0x2E99), (0x2E9B, 0x2EF3), (0x2F00, 0x2FD5),
      (0x3005, 0x3005), (0x3007, 0x3007), (0x3021, 0x3029), (0x3038, 0x303B), (0x3400, 0x4DBF),
      (0x4E00, 0x9FFF), (0xF900, 0xFA6D), (0xFA70, 0xFAD9), (0x16FE2, 0x16FE3),
      (0x16FF0, 0x16FF1), (0x20000, 0x2A6DF), (0x2A700, 0x2B738), (0x2B740, 0x2B81D),
      (0x2B820, 0x2CEA1), (0x2CEB0, 0x2EBE0), (0x2F800, 0x2FA1D), (0x30000, 0x3134A)]
  | _ => Option.none

def propertyNamed? (name : String) : Option CharClass :=
  match name with
  | "any" => some any
  | "ascii" => some (range 0 0x7F)
  | "assigned" => some (compl (category .cn))
  | "whitespace" | "wspace" | "space" => some whiteSpace
  | "uppercase" | "upper" => some (ofCategories [.lu])
  | "lowercase" | "lower" => some (ofCategories [.ll])
  | "alphabetic" | "alpha" => some (diff word (ofCategories [.nd, .pc, .mn, .me]))
  | _ => Option.none

/-- Names of properties are compared without case, blanks, hyphens and underscores. -/
def looseName (name : List Char) : String :=
  let plain := (name.map Char.toLower).filter (fun c => c != ' ' && c != '-' && c != '_')
  String.ofList plain

/-- The class with the given name: a general category, a script, or another property. -/
def ofName? (name : List Char) : Option CharClass :=
  let name := looseName name
  match categoriesNamed? name with
  | some ks => some (ofCategories ks)
  | Option.none =>
    match propertyNamed? name with
    | some a => some a
    | Option.none => (scriptRanges? name).map ofRanges

def ofNameAndValue? (name value : List Char) : Option CharClass :=
  match looseName name with
  | "gc" | "generalcategory" => (categoriesNamed? (looseName value)).map ofCategories
  | "sc" | "script" | "scx" | "scriptextensions" =>
    (scriptRanges? (looseName value)).map ofRanges
  | _ => Option.none

end CharClass

end PropertyGraph
