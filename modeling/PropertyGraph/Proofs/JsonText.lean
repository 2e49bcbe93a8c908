import PropertyGraph.Proofs.Numeral
import PropertyGraph.Query.Signature

namespace PropertyGraph.Json

/-- All numbers in the value are finite, so all of it can be spelled. -/
inductive Finite : Json → Prop
  | null : Finite .null
  | bool (b : Bool) : Finite (.bool b)
  | integer (i : Int) : Finite (.integer i)
  | double {x : Double} (h : x.isFinite = true) : Finite (.double x)
  | string (s : String) : Finite (.string s)
  | array {items : List Json} (h : ∀ j ∈ items, Finite j) : Finite (.array items)
  | object {members : List (String × Json)} (h : ∀ m ∈ members, Finite m.2) :
    Finite (.object members)

section Quoted

/-- The piece of a string that is read where the character was escaped. -/
def piece (c : Char) : Document.Piece :=
  if escapeLetter? c = none ∧ c.toNat < 0x20 then .code c.toNat else .char c

theorem hexValue?_digitChar : ∀ d < 16, Hex.value? (Nat.digitChar d) = some d := by decide

theorem code?_control {n : Nat} (hn : n < 0x20) :
    Document.code? '0' '0' (Nat.digitChar (n / 16)) (Nat.digitChar (n % 16)) = some n := by
  have hzero : Hex.value? '0' = some 0 := by decide
  have hhigh := hexValue?_digitChar (n / 16) (by omega)
  have hlow := hexValue?_digitChar (n % 16) (by omega)
  simp only [Document.code?, hzero, hhigh, hlow, Option.bind_eq_bind, Option.bind_some,
    Option.pure_def, Option.some.injEq]
  omega

theorem unescape?_letter {c letter : Char} (h : escapeLetter? c = some letter) :
    Document.unescape? letter = some c ∧ letter ≠ 'u' := by
  unfold escapeLetter? at h
  repeat' split at h
  all_goals cases h
  all_goals
    subst c
    decide

theorem pieces_escape (c : Char) (rest : List Char) :
    Document.pieces (escape c ++ rest) =
      (Document.pieces rest).map (fun p => (piece c :: p.1, p.2)) := by
  unfold escape
  cases hc : escapeLetter? c with
  | some letter =>
    obtain ⟨hletter, hu⟩ := unescape?_letter hc
    have hp : piece c = .char c := if_neg (by simp [hc])
    simp only [List.cons_append, List.nil_append]
    rw [Document.pieces.eq_4 letter rest (fun _ _ _ _ _ h => absurd h hu), hletter, hp]
    cases Document.pieces rest <;> rfl
  | none =>
    by_cases hlt : c.toNat < 0x20
    · have hp : piece c = .code c.toNat := if_pos ⟨hc, hlt⟩
      simp only [if_pos hlt, List.cons_append, List.nil_append]
      rw [Document.pieces, code?_control hlt, hp]
      cases Document.pieces rest <;> rfl
    · have hquote : c ≠ '"' := by rintro rfl; cases hc
      have hslash : c ≠ '\\' := by rintro rfl; cases hc
      have hp : piece c = .char c := if_neg (fun h => hlt h.2)
      simp only [if_neg hlt, List.cons_append, List.nil_append]
      rw [Document.pieces.eq_5 c rest hquote (fun _ _ _ _ _ h => absurd h hslash)
        (fun _ _ h => absurd h hslash), if_neg hlt, hp]
      cases Document.pieces rest <;> rfl

theorem pieces_quoted (cs rest : List Char) :
    Document.pieces (cs.flatMap escape ++ '"' :: rest) = some (cs.map piece, rest) := by
  induction cs with
  | nil => simp [Document.pieces]
  | cons c cs ih =>
    rw [List.flatMap_cons, List.append_assoc, pieces_escape, ih]
    rfl

theorem characters?_piece (c : Char) (ps : List Document.Piece) :
    Document.characters? (piece c :: ps) = (Document.characters? ps).map (c :: ·) := by
  unfold piece
  split
  · next h =>
    have hhigh : Document.isHighSurrogate c.toNat = false := by
      simp [Document.isHighSurrogate]
      omega
    have hlow : Document.isLowSurrogate c.toNat = false := by
      simp [Document.isLowSurrogate]
      omega
    have hc := Char.ofNat_toNat c
    generalize c.toNat = n at hhigh hlow hc
    rw [Document.characters?.eq_def]
    split <;> simp_all
  · rw [Document.characters?]

theorem characters?_pieces (cs : List Char) :
    Document.characters? (cs.map piece) = some cs := by
  induction cs with
  | nil => rw [List.map_nil, Document.characters?]
  | cons c cs ih => rw [List.map_cons, characters?_piece, ih, Option.map_some]

/-- Quoted strings are told apart, whatever follows. -/
theorem quoted_append_inj {s t : String} {rest rest' : List Char}
    (h : quoted s ++ rest = quoted t ++ rest') : s = t ∧ rest = rest' := by
  simp only [quoted, List.append_assoc, List.cons_append, List.nil_append, List.cons.injEq,
    true_and] at h
  have hread := pieces_quoted s.toList rest
  rw [h, pieces_quoted, Option.some.injEq, Prod.mk.injEq] at hread
  have hchars := congrArg Document.characters? hread.1
  rw [characters?_pieces, characters?_pieces, Option.some.injEq] at hchars
  exact ⟨(String.toList_inj.mp hchars).symm, hread.2.symm⟩

end Quoted

section Kinds

/-- What kind of value a text starts, where all characters of numbers count alike. -/
def opening (c : Char) : Char := if Document.isDigit c || c == '-' then '0' else c

/-- The opening of the value's text. -/
def mark : Json → Char
  | null => 'n'
  | bool true => 't'
  | bool false => 'f'
  | integer _ => '0'
  | double _ => '0'
  | string _ => '"'
  | array _ => '['
  | object _ => '\x7b'

theorem opening_spelling {n : Numeral} (hn : n.Proper) :
    ∃ c cs, n.spelling = c :: cs ∧ opening c = '0' := by
  obtain ⟨d, ds, hd⟩ := List.exists_cons_of_ne_nil hn.whole_ne_nil
  have hdigit : Document.isDigit d = true := hn.whole d (hd ▸ List.mem_cons_self)
  unfold Numeral.spelling
  cases n.negative with
  | true => exact ⟨'-', _, rfl, by decide⟩
  | false => exact ⟨d, _, by rw [hd]; rfl, by simp [opening, hdigit]⟩

/-- The text of a value starts with a character of its kind. -/
theorem chars_opening {j : Json} (hj : j.Finite) :
    ∃ c cs, j.chars = c :: cs ∧ opening c = j.mark := by
  cases hj with
  | null => exact ⟨'n', _, by rw [chars], by decide⟩
  | bool b =>
    cases b with
    | true => exact ⟨'t', _, by rw [chars], by decide⟩
    | false => exact ⟨'f', _, by rw [chars], by decide⟩
  | integer i =>
    rw [chars, ← spelling_integerNumeral]
    exact opening_spelling (proper_integerNumeral i)
  | double h =>
    obtain ⟨n, htext, -, hproper, -⟩ := Double.text_spells h
    rw [chars, htext]
    exact opening_spelling hproper
  | string s => exact ⟨'"', _, by rw [chars]; rfl, rfl⟩
  | @array items h =>
    cases items with
    | nil => exact ⟨'[', _, by rw [chars], by decide⟩
    | cons item rest => exact ⟨'[', _, by rw [chars]; rfl, rfl⟩
  | @object members h =>
    cases members with
    | nil => exact ⟨'\x7b', _, by rw [chars], by decide⟩
    | cons member rest => exact ⟨'\x7b', _, by rw [chars]; rfl, rfl⟩

theorem mark_eq_of_append {j k : Json} (hj : j.Finite) (hk : k.Finite) {rest rest' : List Char}
    (h : j.chars ++ rest = k.chars ++ rest') : j.mark = k.mark := by
  obtain ⟨c, cs, hc, hcm⟩ := chars_opening hj
  obtain ⟨d, ds, hd, hdm⟩ := chars_opening hk
  rw [hc, hd, List.cons_append, List.cons_append, List.cons.injEq] at h
  rw [← hcm, ← hdm, h.1]

end Kinds

/-- The text of the value is told from the text of every other value, whatever follows. -/
def Recognized (j : Json) : Prop :=
  ∀ {k : Json} {rest rest' : List Char}, k.Finite → Ends rest → Ends rest' →
    j.chars ++ rest = k.chars ++ rest' → j = k ∧ rest = rest'

theorem ends_cons {c : Char} (rest : List Char)
    (hc : Document.isDigit c = false ∧ c ≠ '.' ∧ c ≠ 'e' ∧ c ≠ 'E') : Ends (c :: rest) := by
  rintro _ ⟨⟩
  exact hc

theorem ends_itemChars (items : List Json) (rest : List Char) :
    Ends (itemChars items ++ (']' :: rest)) := by
  cases items with
  | nil => exact ends_cons _ (by decide)
  | cons item items =>
    rw [itemChars]
    exact ends_cons _ (by decide)

theorem ends_memberChars (members : List (String × Json)) (rest : List Char) :
    Ends (memberChars members ++ ('\x7d' :: rest)) := by
  cases members with
  | nil => exact ends_cons _ (by decide)
  | cons member members =>
    rw [memberChars]
    exact ends_cons _ (by decide)

theorem itemChars_inj {items items' : List Json} (hi : ∀ j ∈ items, Recognized j)
    (hf : ∀ j ∈ items', j.Finite) {rest rest' : List Char}
    (h : itemChars items ++ (']' :: rest) = itemChars items' ++ (']' :: rest')) :
    items = items' ∧ rest = rest' := by
  induction items generalizing items' with
  | nil =>
    cases items' with
    | nil => simpa [itemChars] using h
    | cons j items' => simp [itemChars] at h
  | cons i items ih =>
    cases items' with
    | nil => simp [itemChars] at h
    | cons j items' =>
      simp only [itemChars, List.cons_append, List.nil_append, List.append_assoc,
        List.cons.injEq, true_and] at h
      -- What follows the item, a comma or a bracket, cannot continue a number.
      obtain ⟨rfl, htail⟩ := hi i List.mem_cons_self (hf j List.mem_cons_self)
        (ends_itemChars _ _) (ends_itemChars _ _) h
      obtain ⟨rfl, hrest⟩ := ih (fun k hk => hi k (List.mem_cons_of_mem _ hk))
        (fun k hk => hf k (List.mem_cons_of_mem _ hk)) htail
      exact ⟨rfl, hrest⟩

theorem memberChars_inj {members members' : List (String × Json)}
    (hi : ∀ m ∈ members, Recognized m.2) (hf : ∀ m ∈ members', m.2.Finite)
    {rest rest' : List Char}
    (h : memberChars members ++ ('\x7d' :: rest) = memberChars members' ++ ('\x7d' :: rest')) :
    members = members' ∧ rest = rest' := by
  induction members generalizing members' with
  | nil =>
    cases members' with
    | nil => simpa [memberChars] using h
    | cons m members' => simp [memberChars] at h
  | cons m members ih =>
    obtain ⟨key, j⟩ := m
    cases members' with
    | nil => simp [memberChars] at h
    | cons m' members' =>
      obtain ⟨key', j'⟩ := m'
      simp only [memberChars, List.cons_append, List.nil_append, List.append_assoc,
        List.cons.injEq, true_and] at h
      obtain ⟨rfl, hvalue⟩ := quoted_append_inj h
      simp only [List.cons.injEq, true_and] at hvalue
      obtain ⟨rfl, htail⟩ := hi (key, j) List.mem_cons_self (hf _ List.mem_cons_self)
        (ends_memberChars _ _) (ends_memberChars _ _) hvalue
      obtain ⟨rfl, hrest⟩ := ih (fun k hk => hi k (List.mem_cons_of_mem _ hk))
        (fun k hk => hf k (List.mem_cons_of_mem _ hk)) htail
      exact ⟨rfl, hrest⟩

theorem ne_bracket_of_chars {j : Json} (hj : j.Finite) (rest rest' : List Char) :
    j.chars ++ rest ≠ ']' :: rest' := by
  obtain ⟨c, cs, hc, hmark⟩ := chars_opening hj
  intro h
  rw [hc, List.cons_append, List.cons.injEq] at h
  rw [h.1] at hmark
  cases hj with
  | bool b => cases b <;> exact absurd hmark (by decide)
  | _ => exact absurd hmark (by simp [opening, mark, Document.isDigit])

/-- Numbers are told apart by what they spell, and integers from doubles by having neither a
point nor an exponent. -/
theorem recognized_integer (i : Int) : (integer i).Recognized := by
  intro k rest rest' hk hr hr' h
  have hmark := mark_eq_of_append (.integer i) hk h
  rw [chars, ← spelling_integerNumeral] at h
  cases hk with
  | integer i' =>
    rw [chars, ← spelling_integerNumeral] at h
    obtain ⟨hn, hrest⟩ :=
      (proper_integerNumeral i).spelling_inj (proper_integerNumeral i') hr hr' h
    exact ⟨congrArg integer (integerNumeral_inj hn), hrest⟩
  | double hx =>
    obtain ⟨n, htext, -, hproper, hplain, -⟩ := Double.text_spells hx
    rw [chars, htext] at h
    obtain ⟨rfl, -⟩ := (proper_integerNumeral i).spelling_inj hproper hr hr' h
    cases hplain
  | bool b => cases b <;> exact absurd hmark (by simp [mark])
  | _ => exact absurd hmark (by simp [mark])

theorem recognized_double {x : Double} (hx : x.isFinite = true) : (double x).Recognized := by
  intro k rest rest' hk hr hr' h
  have hmark := mark_eq_of_append (.double hx) hk h
  cases hk with
  | integer i' =>
    obtain ⟨h, -⟩ := recognized_integer i' (.double hx) hr' hr h.symm
    cases h
  | double hx' =>
    obtain ⟨n, htext, -, hproper, -⟩ := Double.text_spells hx
    obtain ⟨n', htext', -, hproper', -⟩ := Double.text_spells hx'
    rw [chars, chars, htext, htext'] at h
    obtain ⟨rfl, hrest⟩ := hproper.spelling_inj hproper' hr hr' h
    have hxy := Double.text_inj hx hx' (String.toList_inj.mp (htext.trans htext'.symm))
    exact ⟨congrArg double hxy, hrest⟩
  | bool b => cases b <;> exact absurd hmark (by simp [mark])
  | _ => exact absurd hmark (by simp [mark])

theorem recognized_string (s : String) : (string s).Recognized := by
  intro k rest rest' hk hr hr' h
  have hmark := mark_eq_of_append (.string s) hk h
  cases hk with
  | string s' =>
    rw [chars, chars] at h
    obtain ⟨rfl, hrest⟩ := quoted_append_inj h
    exact ⟨rfl, hrest⟩
  | bool b => cases b <;> exact absurd hmark (by simp [mark])
  | _ => exact absurd hmark (by simp [mark])

theorem recognized_array {items : List Json} (hf : ∀ j ∈ items, j.Finite)
    (hi : ∀ j ∈ items, Recognized j) : (array items).Recognized := by
  intro k rest rest' hk hr hr' h
  have hmark := mark_eq_of_append (.array hf) hk h
  cases hk with
  | @array items' hf' =>
    cases items with
    | nil =>
      cases items' with
      | nil => simpa [chars] using h
      | cons j items' =>
        simp only [chars, List.cons_append, List.nil_append, List.append_assoc, List.cons.injEq,
          true_and] at h
        exact absurd h.symm (ne_bracket_of_chars (hf' j List.mem_cons_self) _ _)
    | cons i items =>
      cases items' with
      | nil =>
        simp only [chars, List.cons_append, List.nil_append, List.append_assoc, List.cons.injEq,
          true_and] at h
        exact absurd h (ne_bracket_of_chars (hf i List.mem_cons_self) _ _)
      | cons j items' =>
        have hitems : itemChars (i :: items) ++ (']' :: rest) =
            itemChars (j :: items') ++ (']' :: rest') := by
          simpa [chars, itemChars] using h
        obtain ⟨heq, hrest⟩ := itemChars_inj hi hf' hitems
        exact ⟨congrArg array heq, hrest⟩
  | bool b => cases b <;> exact absurd hmark (by simp [mark])
  | _ => exact absurd hmark (by simp [mark])

theorem recognized_object {members : List (String × Json)} (hf : ∀ m ∈ members, m.2.Finite)
    (hi : ∀ m ∈ members, Recognized m.2) : (object members).Recognized := by
  intro k rest rest' hk hr hr' h
  have hmark := mark_eq_of_append (.object hf) hk h
  cases hk with
  | @object members' hf' =>
    cases members with
    | nil =>
      cases members' with
      | nil => simpa [chars] using h
      | cons m' members' => simp [chars, quoted] at h
    | cons m members =>
      cases members' with
      | nil => simp [chars, quoted] at h
      | cons m' members' =>
        have hmembers : memberChars (m :: members) ++ ('\x7d' :: rest) =
            memberChars (m' :: members') ++ ('\x7d' :: rest') := by
          simpa [chars, memberChars] using h
        obtain ⟨heq, hrest⟩ := memberChars_inj hi hf' hmembers
        exact ⟨congrArg object heq, hrest⟩
  | bool b => cases b <;> exact absurd hmark (by simp [mark])
  | _ => exact absurd hmark (by simp [mark])

/-- No text of a value starts with the text of another, unless it goes on like a number. -/
theorem Finite.recognized {j : Json} (hj : j.Finite) : j.Recognized := by
  induction hj with
  | null =>
    intro k rest rest' hk hr hr' h
    have hmark := mark_eq_of_append .null hk h
    cases hk with
    | null => simpa using h
    | bool b => cases b <;> exact absurd hmark (by decide)
    | _ => exact absurd hmark (by simp [mark])
  | bool b =>
    intro k rest rest' hk hr hr' h
    have hmark := mark_eq_of_append (.bool b) hk h
    cases hk with
    | bool b' => cases b <;> cases b' <;> simp [chars] at h ⊢; all_goals assumption
    | _ => cases b <;> exact absurd hmark (by simp [mark])
  | integer i => exact recognized_integer i
  | double hx => exact recognized_double hx
  | string s => exact recognized_string s
  | array hf ih => exact recognized_array hf ih
  | object hf ih => exact recognized_object hf ih

/-- Values with the same text are the same. -/
theorem Finite.text_inj {j k : Json} (hj : j.Finite) (hk : k.Finite) (h : j.text = k.text) :
    j = k := by
  have hchars : j.chars ++ [] = k.chars ++ [] := by
    rw [List.append_nil, List.append_nil, ← String.ofList_inj]
    exact h
  exact (hj.recognized hk ends_nil ends_nil hchars).1

end PropertyGraph.Json
