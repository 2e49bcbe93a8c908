import PropertyGraph.Proofs.JsonTokens
import PropertyGraph.Proofs.Reading

namespace PropertyGraph

namespace Json

mutual

/-- The doubles in a value, at any depth. -/
def doubles : Json → List Double
  | .double x => [x]
  | .array items => itemDoubles items
  | .object members => memberDoubles members
  | _ => []

def itemDoubles : List Json → List Double
  | [] => []
  | item :: rest => item.doubles ++ itemDoubles rest

def memberDoubles : List (String × Json) → List Double
  | [] => []
  | (_, value) :: rest => value.doubles ++ memberDoubles rest

end

/-- The nesting of the value is at most so deep, and its integers are those that are read as
integers. -/
inductive Fits : Nat → Json → Prop
  | null (n : Nat) : Fits n .null
  | bool (n : Nat) (b : Bool) : Fits n (.bool b)
  | integer (n : Nat) {i : Int} (low : -2 ^ 63 ≤ i) (high : i < 2 ^ 64) : Fits n (.integer i)
  | double (n : Nat) (x : Double) : Fits n (.double x)
  | string (n : Nat) (s : String) : Fits n (.string s)
  | array {n : Nat} {items : List Json} (h : ∀ j ∈ items, Fits n j) : Fits (n + 1) (.array items)
  | object {n : Nat} {members : List (String × Json)} (h : ∀ m ∈ members, Fits n m.2) :
    Fits (n + 1) (.object members)

theorem itemDoubles_eq_flatMap (items : List Json) : itemDoubles items = items.flatMap doubles := by
  induction items with
  | nil => rfl
  | cons item rest ih => rw [itemDoubles, ih, List.flatMap_cons]

theorem memberDoubles_eq_flatMap (members : List (String × Json)) :
    memberDoubles members = members.flatMap (fun m => m.2.doubles) := by
  induction members with
  | nil => rfl
  | cons m rest ih =>
    obtain ⟨key, value⟩ := m
    rw [memberDoubles, ih, List.flatMap_cons]

end Json

/-- The double is what its own text is read as. -/
def Double.ReadsBack (x : Double) : Prop := Document.parse? x.text = some (.double x)

theorem Double.ReadsBack.isFinite {x : Double} (h : x.ReadsBack) : x.isFinite = true := by
  cases Document.bounded_of_parse? h with
  | double hx => exact hx

namespace Json

theorem fits_array {n : Nat} {items : List Json} :
    (array items).Fits (n + 1) ↔ ∀ j ∈ items, j.Fits n :=
  ⟨fun h => by cases h with | array h => exact h, .array⟩

theorem fits_object {n : Nat} {members : List (String × Json)} :
    (object members).Fits (n + 1) ↔ ∀ m ∈ members, m.2.Fits n :=
  ⟨fun h => by cases h with | object h => exact h, .object⟩

theorem mem_doubles_array {items : List Json} {x : Double} :
    x ∈ (array items).doubles ↔ ∃ j ∈ items, x ∈ j.doubles := by
  rw [doubles, itemDoubles_eq_flatMap, List.mem_flatMap]

theorem mem_doubles_object {members : List (String × Json)} {x : Double} :
    x ∈ (object members).doubles ↔ ∃ m ∈ members, x ∈ m.2.doubles := by
  rw [doubles, memberDoubles_eq_flatMap, List.mem_flatMap]

theorem Fits.finite {n : Nat} {j : Json} (h : j.Fits n) (hdoubles : ∀ x ∈ j.doubles, x.ReadsBack) :
    j.Finite := by
  induction h with
  | null => exact .null
  | bool _ b => exact .bool b
  | integer => exact .integer _
  | double _ x => exact .double (hdoubles x (by simp [doubles])).isFinite
  | string _ s => exact .string s
  | array _ ih =>
    exact .array (fun j hj => ih j hj (fun x hx => hdoubles x (mem_doubles_array.mpr ⟨j, hj, hx⟩)))
  | object _ ih =>
    exact .object
      (fun m hm => ih m hm (fun x hx => hdoubles x (mem_doubles_object.mpr ⟨m, hm, hx⟩)))

end Json

namespace Document

open Json

variable {ts : List (List Char)} {token text rest : List Char} {c : Char} {cs : List Char}

section Blanks

theorem skipBlanks_append {blanks : List Char} (hb : ∀ c ∈ blanks, isBlank c = true)
    (rest : List Char) : skipBlanks (blanks ++ rest) = skipBlanks rest :=
  List.dropWhile_append_of_pos hb

/-- Behind the last token there is nothing but blanks. -/
theorem skipBlanks_of_spaced_nil (h : Spaced [] text) : skipBlanks text = [] := by
  cases h with
  | done hb =>
    rw [← List.append_nil text, skipBlanks_append hb]
    rfl

/-- Skipping blanks leads to the next token. -/
theorem skipBlanks_of_spaced (h : Spaced ((c :: cs) :: ts) text) (hc : isBlank c = false) :
    ∃ rest, skipBlanks text = c :: (cs ++ rest) ∧ Spaced ts rest := by
  cases h with
  | @token blanks _ rest _ hb hs =>
    refine ⟨rest, ?_, hs⟩
    rw [List.append_assoc, skipBlanks_append hb, skipBlanks, List.cons_append,
      List.dropWhile_cons_of_neg (by simp [hc])]

/-- Nothing follows, or a separator or a closing bracket does. -/
def Closes (ts : List (List Char)) : Prop :=
  ∀ token, ts.head? = some token → token ∈ [[','], [']'], ['\x7d']]

/-- What follows a value cannot continue a number. -/
theorem Closes.ends (hc : Closes ts) (h : Spaced ts rest) : Ends rest := by
  have hblank : ∀ c, isBlank c = true → isDigit c = false ∧ c ≠ '.' ∧ c ≠ 'e' ∧ c ≠ 'E' := by
    intro c hc
    simp only [isBlank, Bool.or_eq_true, beq_iff_eq] at hc
    rcases hc with ((rfl | rfl) | rfl) | rfl <;> decide
  intro c hhead
  cases h with
  | @done blanks hb => exact hblank c (hb c (List.mem_of_head? hhead))
  | @token blanks token rest ts hb _ =>
    cases blanks with
    | cons b bs =>
      obtain rfl : b = c := Option.some.inj hhead
      exact hblank b (hb b List.mem_cons_self)
    | nil =>
      have htoken := hc token rfl
      simp only [List.mem_cons, List.not_mem_nil, or_false] at htoken
      rcases htoken with rfl | rfl | rfl <;> obtain rfl := Option.some.inj hhead <;> decide

end Blanks

section Scalars

variable {n : Numeral}

/-- A character that opens a value is neither a blank nor a closing bracket. -/
theorem not_blank_of_opening {m : Char} (h : opening c = m)
    (hm : m ∉ [' ', '\n', '\t', '\r', ']']) : isBlank c = false ∧ c ≠ ']' := by
  subst h
  constructor
  · by_contra hb
    simp only [Bool.not_eq_false, isBlank, Bool.or_eq_true, beq_iff_eq] at hb
    rcases hb with ((rfl | rfl) | rfl) | rfl <;> exact hm (by decide)
  · rintro rfl
    exact hm (by decide)

/-- The first token of a value starts with what opens the value. -/
theorem tokens_head {j : Json} (hj : j.Finite) :
    ∃ c cs ts, j.tokens = (c :: cs) :: ts ∧ isBlank c = false ∧ c ≠ ']' := by
  obtain ⟨c, cs, hc, hmark⟩ := chars_opening hj
  have hne := hj.tokens_ne_nil
  rw [← flatten_tokens] at hc
  have hopens : j.mark ∉ [' ', '\n', '\t', '\r', ']'] := by
    cases j with
    | bool b => cases b <;> simp [mark]
    | _ => simp [mark]
  cases htokens : j.tokens with
  | nil => simp [htokens] at hc
  | cons token ts =>
    obtain ⟨d, ds, rfl⟩ := List.exists_cons_of_ne_nil (hne token (htokens ▸ List.mem_cons_self))
    rw [htokens] at hc
    obtain ⟨rfl, -⟩ := List.cons.inj hc
    exact ⟨_, _, _, rfl, not_blank_of_opening hmark hopens⟩

theorem value?_spelling (hn : n.Proper) (hr : Ends rest) (fuel depth : Nat) :
    value? (fuel + 1) depth (n.spelling ++ rest) = some (ofNumeral n, rest) := by
  obtain ⟨c, cs, hc, hopening⟩ := opening_spelling hn
  have hread := hn.numeral?_spelling hr
  rw [hc, List.cons_append] at hread ⊢
  unfold value?
  dsimp only
  split
  all_goals try
    next h =>
      obtain ⟨rfl, -⟩ := List.cons.inj h
      exact absurd hopening (by decide)
  rw [hread, Option.map_some]

theorem ofNumeral_integerNumeral {i : Int} (low : -2 ^ 63 ≤ i) (high : i < 2 ^ 64) :
    ofNumeral (integerNumeral i) = .integer i := by
  have hvalue : (integerNumeral i).value? = some (.integer i) := by
    unfold Numeral.value? integerNumeral
    simp only [digitsValue_toDigits, Option.isNone_none, Bool.and_self, Bool.true_and]
    by_cases hi : i < 0
    · have hfits : 0 < i.natAbs ∧ i.natAbs ≤ 0x8000000000000000 := by omega
      simp [hi, hfits, abs_of_neg hi]
    · have habs : (i.natAbs : Int) = i := by omega
      have hfits : i.natAbs < 0x10000000000000000 := by omega
      simp [hi, hfits, habs]
  rw [ofNumeral, hvalue]

theorem parse?_spelling (hn : n.Proper) {text : String} (ht : text.toList = n.spelling) :
    parse? text = some (ofNumeral n) := by
  obtain ⟨c, cs, hc, hopening⟩ := opening_spelling hn
  have hskip : skipBlanks n.spelling = n.spelling := by
    rw [hc, skipBlanks, List.dropWhile_cons_of_neg
      (by simp [(not_blank_of_opening hopening (by decide)).1])]
  have hvalue := value?_spelling hn ends_nil n.spelling.length 0
  rw [List.append_nil] at hvalue
  rw [parse?, ofChars?, ht, hskip, hvalue]
  rfl

/-- A double reads back if its text spells a numeral that stands for it. -/
theorem readsBack_of_spelling {x : Double} (hn : n.Proper) (ht : x.text.toList = n.spelling)
    (hvalue : ofNumeral n = .double x) : x.ReadsBack := by
  rw [Double.ReadsBack, parse?_spelling hn ht, hvalue]

/-- The text of a double that reads back spells a numeral that stands for it. -/
theorem exists_numeral_of_readsBack {x : Double} (h : x.ReadsBack) :
    ∃ n : Numeral, n.Proper ∧ x.text.toList = n.spelling ∧ ofNumeral n = .double x := by
  obtain ⟨n, htext, -, hproper, -⟩ := Double.text_spells h.isFinite
  rw [Double.ReadsBack, parse?_spelling hproper htext] at h
  exact ⟨n, hproper, htext, Option.some.inj h⟩

end Scalars

section Values

variable {n : Nat}

/-- Inside few enough containers, the value is read from any layout of its tokens, up to what
follows it. -/
def ReadsOut (n : Nat) (j : Json) : Prop :=
  ∀ (depth fuel : Nat) {ts : List (List Char)} {text : List Char}, depth + n ≤ depthLimit →
    j.tokens.length ≤ fuel → Spaced (j.tokens ++ ts) text → Closes ts →
    ∃ rest, Spaced ts rest ∧ value? fuel depth (skipBlanks text) = some (ofJson j, rest)

theorem closes_cons (ht : token ∈ [[','], [']'], ['\x7d']]) (ts : List (List Char)) :
    Closes (token :: ts) := by
  rintro _ ⟨⟩
  exact ht

theorem closes_itemTokens (items : List Json) (ts : List (List Char)) :
    Closes (itemTokens items ++ [']'] :: ts) := by
  cases items with
  | nil => exact closes_cons (by simp) ts
  | cons item rest =>
    rw [itemTokens]
    exact closes_cons (by simp) _

theorem closes_memberTokens (members : List (String × Json)) (ts : List (List Char)) :
    Closes (memberTokens members ++ ['\x7d'] :: ts) := by
  cases members with
  | nil => exact closes_cons (by simp) ts
  | cons m rest =>
    rw [memberTokens]
    exact closes_cons (by simp) _

/-- Items are read up to the closing bracket. -/
theorem items?_spaced {item : Json} {items : List Json} (h : ∀ j ∈ item :: items, ReadsOut n j)
    {depth : Nat} (hd : depth + n ≤ depthLimit) (fuel : Nat)
    (hf : (item.tokens ++ itemTokens items).length ≤ fuel)
    (hs : Spaced (item.tokens ++ (itemTokens items ++ [']'] :: ts)) text) :
    ∃ rest, Spaced ts rest ∧
      items? (fuel + 1) depth (skipBlanks text) = some (ofItems (item :: items), rest) := by
  induction items generalizing item fuel text with
  | nil =>
    rw [List.length_append] at hf
    obtain ⟨rest, hrest, hitem⟩ := h item List.mem_cons_self depth fuel hd (by omega) hs
      (closes_itemTokens [] ts)
    obtain ⟨after, hskip, hafter⟩ := skipBlanks_of_spaced hrest (by decide)
    exact ⟨after, hafter, by simp [items?, hitem, hskip, ofItems]⟩
  | cons next items ih =>
    rw [itemTokens, List.length_append, List.length_cons] at hf
    obtain ⟨fuel, rfl⟩ := Nat.exists_eq_succ_of_ne_zero (by omega : fuel ≠ 0)
    obtain ⟨rest, hrest, hitem⟩ := h item List.mem_cons_self depth (fuel + 1) hd (by omega) hs
      (closes_itemTokens (next :: items) ts)
    rw [itemTokens, List.cons_append, List.append_assoc] at hrest
    obtain ⟨more, hskip, hmore⟩ := skipBlanks_of_spaced hrest (by decide)
    obtain ⟨after, hafter, hitems⟩ :=
      ih (fun j hj => h j (List.mem_cons_of_mem _ hj)) fuel (by omega) hmore
    refine ⟨after, hafter, ?_⟩
    rw [items?]
    simp [hitem, hskip, hitems, ofItems]

theorem quoted_eq_cons (s : String) :
    quoted s = '"' :: (s.toList.flatMap escape ++ ['"']) := rfl

/-- A member as it is read from its text. -/
def rawMember (m : String × Json) : RawMember := (m.1.toList.map piece, ofJson m.2)

/-- A key is read up to the value behind it. -/
theorem key_spaced {key : String} (hs : Spaced (quoted key :: [':'] :: ts) text) :
    ∃ behind rest value, skipBlanks text = '"' :: behind ∧
      pieces behind = some (key.toList.map piece, rest) ∧ skipBlanks rest = ':' :: value ∧
      Spaced ts value := by
  rw [quoted_eq_cons] at hs
  obtain ⟨rest, hskip, hrest⟩ := skipBlanks_of_spaced hs (by decide)
  obtain ⟨value, hcolon, hvalue⟩ := skipBlanks_of_spaced hrest (by decide)
  rw [List.append_assoc, List.singleton_append] at hskip
  exact ⟨_, rest, value, hskip, pieces_quoted key.toList rest, hcolon, hvalue⟩

/-- Members are read up to the closing brace. -/
theorem members?_spaced {m : String × Json} {members : List (String × Json)}
    (h : ∀ m' ∈ m :: members, ReadsOut n m'.2) {depth : Nat} (hd : depth + n ≤ depthLimit)
    (fuel : Nat) (hf : (m.2.tokens ++ memberTokens members).length ≤ fuel)
    (hs : Spaced (quoted m.1 :: [':'] ::
      (m.2.tokens ++ (memberTokens members ++ ['\x7d'] :: ts))) text) :
    ∃ rest, Spaced ts rest ∧
      members? (fuel + 1) depth (skipBlanks text) = some ((m :: members).map rawMember, rest) := by
  induction members generalizing m fuel text with
  | nil =>
    rw [List.length_append] at hf
    obtain ⟨behind, colon, value, hquote, hkey, hcolon, hvalue⟩ := key_spaced hs
    obtain ⟨rest, hrest, hread⟩ := h m List.mem_cons_self depth fuel hd (by omega) hvalue
      (closes_memberTokens [] ts)
    obtain ⟨after, hskip, hafter⟩ := skipBlanks_of_spaced hrest (by decide)
    exact ⟨after, hafter, by simp [members?, hquote, hkey, hcolon, hread, hskip, rawMember]⟩
  | cons next members ih =>
    rw [memberTokens, List.length_append, List.length_cons] at hf
    obtain ⟨fuel, rfl⟩ := Nat.exists_eq_succ_of_ne_zero (by omega : fuel ≠ 0)
    obtain ⟨behind, colon, value, hquote, hkey, hcolon, hvalue⟩ := key_spaced hs
    obtain ⟨rest, hrest, hread⟩ := h m List.mem_cons_self depth (fuel + 1) hd (by omega) hvalue
      (closes_memberTokens (next :: members) ts)
    rw [memberTokens, List.cons_append, List.cons_append, List.cons_append,
      List.append_assoc] at hrest
    obtain ⟨more, hskip, hmore⟩ := skipBlanks_of_spaced hrest (by decide)
    obtain ⟨after, hafter, hmembers⟩ :=
      ih (fun m' hm => h m' (List.mem_cons_of_mem _ hm)) fuel (by simp at hf ⊢; omega) hmore
    refine ⟨after, hafter, ?_⟩
    rw [hquote, members?]
    simp [hkey, hcolon, hread, hskip, hmembers, rawMember]

theorem ofMembers_rawMembers (members : List (String × Json)) :
    ofMembers (members.map rawMember) = .object (ofEntries members) := by
  have hread : (members.map rawMember).mapM
      (fun m => (characters? m.1).map (fun cs => (String.ofList cs, m.2))) =
        some (ofEntries members) := by
    rw [mapM_eq_some_iff, List.forall₂_map_left_iff, ofEntries_eq_mapValues, Entries.mapValues,
      List.forall₂_map_right_iff, List.forall₂_same]
    intro m _
    rw [rawMember, characters?_pieces, Option.map_some, String.ofList_toList]
  rw [ofMembers, hread]

theorem nested_of_lt {depth : Nat} (h : depth < depthLimit) (d : Document) : nested depth d = d :=
  if_pos h

/-- A value of one token is read out if the token is recognized before anything that cannot
continue a number. -/
theorem readsOut_of_token {j : Json} (hj : j.tokens = [c :: cs]) (hc : isBlank c = false)
    (hread : ∀ (fuel depth : Nat) {rest : List Char}, Ends rest →
      value? (fuel + 1) depth (c :: (cs ++ rest)) = some (ofJson j, rest)) (n : Nat) :
    ReadsOut n j := by
  intro depth fuel ts text _ hf hs hcloses
  rw [hj] at hf hs
  obtain ⟨fuel, rfl⟩ := Nat.exists_eq_succ_of_ne_zero (by simp at hf; omega : fuel ≠ 0)
  obtain ⟨rest, hskip, hrest⟩ := skipBlanks_of_spaced hs hc
  exact ⟨rest, hrest, by rw [hskip]; exact hread fuel depth (hcloses.ends hrest)⟩

/-- A number is read out if its numeral stands for it. -/
theorem readsOut_of_numeral {j : Json} {m : Numeral} (hm : m.Proper) (hj : j.tokens = [m.spelling])
    (hvalue : ofNumeral m = ofJson j) (n : Nat) : ReadsOut n j := by
  obtain ⟨c, cs, hc, hopening⟩ := opening_spelling hm
  refine readsOut_of_token (hj.trans (by rw [hc])) (not_blank_of_opening hopening (by decide)).1
    ?_ n
  intro fuel depth rest hr
  have hread := value?_spelling hm hr fuel depth
  rwa [hc, List.cons_append, hvalue] at hread

theorem readsOut_string (s : String) (n : Nat) : ReadsOut n (.string s) := by
  refine readsOut_of_token (by rw [tokens, quoted_eq_cons]) (by decide)
    (fun fuel depth rest _ => ?_) n
  have hpieces : ofPieces (s.toList.map piece) = .string s := by
    rw [ofPieces, characters?_pieces]
    exact congrArg Document.string (String.ofList_toList)
  rw [List.append_assoc, List.singleton_append, value?, pieces_quoted]
  exact congrArg (fun d => some (d, rest)) hpieces

/-- An array is read out if its items are, one level further in. -/
theorem readsOut_array {items : List Json} (hfinite : ∀ j ∈ items, j.Finite)
    (h : ∀ j ∈ items, ReadsOut n j) : ReadsOut (n + 1) (.array items) := by
  intro depth fuel ts text hd hf hs hcloses
  have hnested := nested_of_lt (show depth < depthLimit by omega)
  cases items with
  | nil =>
    rw [tokens] at hf hs
    obtain ⟨fuel, rfl⟩ := Nat.exists_eq_succ_of_ne_zero (by simp at hf; omega : fuel ≠ 0)
    obtain ⟨inner, hopen, hinner⟩ := skipBlanks_of_spaced hs (by decide)
    obtain ⟨rest, hclose, hrest⟩ := skipBlanks_of_spaced hinner (by decide)
    refine ⟨rest, hrest, ?_⟩
    rw [hopen, value?]
    simp [hclose, hnested, ofJson, ofItems]
  | cons item items =>
    rw [tokens, List.length_cons, List.length_append, List.length_singleton] at hf
    rw [tokens, List.cons_append, List.append_assoc, List.append_assoc,
      List.singleton_append] at hs
    obtain ⟨fuel, rfl⟩ : ∃ k, fuel = k + 2 := ⟨fuel - 2, by omega⟩
    obtain ⟨inner, hopen, hinner⟩ := skipBlanks_of_spaced hs (by decide)
    obtain ⟨rest, hrest, hitems⟩ := items?_spaced h (show depth + 1 + n ≤ depthLimit by omega)
      fuel (by omega) hinner
    -- An item does not start with a bracket that closes, so the array is not read as an empty one.
    obtain ⟨c, cs, ts', htokens, hblank, hbracket⟩ := tokens_head (hfinite item List.mem_cons_self)
    rw [htokens, List.cons_append] at hinner
    obtain ⟨after, hskip, -⟩ := skipBlanks_of_spaced hinner hblank
    refine ⟨rest, hrest, ?_⟩
    rw [hskip] at hitems
    rw [hopen, value?, List.nil_append, hskip]
    simp [hitems, hnested, ofJson, hbracket]

/-- An object is read out if the values of its members are, one level further in. -/
theorem readsOut_object {members : List (String × Json)} (h : ∀ m ∈ members, ReadsOut n m.2) :
    ReadsOut (n + 1) (.object members) := by
  intro depth fuel ts text hd hf hs hcloses
  have hnested := nested_of_lt (show depth < depthLimit by omega)
  cases members with
  | nil =>
    rw [tokens] at hf hs
    obtain ⟨fuel, rfl⟩ := Nat.exists_eq_succ_of_ne_zero (by simp at hf; omega : fuel ≠ 0)
    obtain ⟨inner, hopen, hinner⟩ := skipBlanks_of_spaced hs (by decide)
    obtain ⟨rest, hclose, hrest⟩ := skipBlanks_of_spaced hinner (by decide)
    refine ⟨rest, hrest, ?_⟩
    rw [hopen, value?]
    simp [hclose, hnested, ofJson, ofEntries]
  | cons m members =>
    rw [tokens, List.length_cons, List.length_cons, List.length_cons, List.length_append,
      List.length_singleton] at hf
    rw [tokens, List.cons_append, List.cons_append, List.cons_append, List.append_assoc,
      List.append_assoc, List.singleton_append] at hs
    obtain ⟨fuel, rfl⟩ : ∃ k, fuel = k + 2 := ⟨fuel - 2, by omega⟩
    obtain ⟨inner, hopen, hinner⟩ := skipBlanks_of_spaced hs (by decide)
    obtain ⟨rest, hrest, hmembers⟩ := members?_spaced h (show depth + 1 + n ≤ depthLimit by omega)
      fuel (by omega) hinner
    obtain ⟨behind, -, -, hquote, -⟩ := key_spaced hinner
    have hobject : ofMembers ((m :: members).map rawMember) = ofJson (.object (m :: members)) :=
      ofMembers_rawMembers (m :: members)
    refine ⟨rest, hrest, ?_⟩
    rw [hquote] at hmembers
    rw [hopen, value?, List.nil_append, hquote]
    simp [hmembers, hnested, hobject, -List.map_cons]

/-- A value is read out if it fits in as many levels and its doubles read back. -/
theorem readsOut_of_fits {j : Json} (hfits : j.Fits n) (hdoubles : ∀ x ∈ j.doubles, x.ReadsBack) :
    ReadsOut n j := by
  induction hfits with
  | null n =>
    exact readsOut_of_token (by rw [tokens]) (by decide) (fun _ _ _ _ => rfl) n
  | bool n b =>
    cases b with
    | true =>
      exact readsOut_of_token (by rw [tokens]) (by decide) (fun _ _ _ _ => rfl) n
    | false =>
      exact readsOut_of_token (by rw [tokens]) (by decide) (fun _ _ _ _ => rfl) n
  | integer n low high =>
    exact readsOut_of_numeral (proper_integerNumeral _) (by rw [tokens, spelling_integerNumeral])
      (ofNumeral_integerNumeral low high) n
  | double n x =>
    obtain ⟨m, hm, htext, hvalue⟩ := exists_numeral_of_readsBack (hdoubles x (by simp [doubles]))
    exact readsOut_of_numeral (j := .double x) hm (by rw [tokens, htext]) hvalue n
  | string n s => exact readsOut_string s n
  | @array n items h ih =>
    have hitem : ∀ j ∈ items, ∀ x ∈ j.doubles, x.ReadsBack :=
      fun j hj x hx => hdoubles x (mem_doubles_array.mpr ⟨j, hj, hx⟩)
    exact readsOut_array (fun j hj => (h j hj).finite (hitem j hj))
      (fun j hj => ih j hj (hitem j hj))
  | object h ih =>
    exact readsOut_object
      (fun m hm => ih m hm (fun x hx => hdoubles x (mem_doubles_object.mpr ⟨m, hm, hx⟩)))

/-- A text is read as what spells the value that it lays out. -/
theorem parse?_laidOut {j : Json} (hfits : j.Fits depthLimit)
    (hdoubles : ∀ x ∈ j.doubles, x.ReadsBack) {text : String} (h : j.LaidOut text) :
    parse? text = some (ofJson j) := by
  have hlength := Spaced.length_le h (hfits.finite hdoubles).tokens_ne_nil
  rw [LaidOut, ← List.append_nil j.tokens] at h
  obtain ⟨rest, hrest, hread⟩ := readsOut_of_fits hfits hdoubles 0 (text.toList.length + 1)
    (Nat.zero_add _).le (by omega) h (by rintro _ ⟨⟩)
  simp only [parse?, ofChars?, hread, skipBlanks_of_spaced_nil hrest, Option.bind_eq_bind,
    Option.bind_some]

end Values

end Document

end PropertyGraph
