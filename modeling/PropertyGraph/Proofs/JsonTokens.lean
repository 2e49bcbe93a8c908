import PropertyGraph.Proofs.JsonText

namespace PropertyGraph

namespace Json

mutual

/-- The tokens of a value, in the order of its compact text. -/
def tokens : Json → List (List Char)
  | .null => [['n', 'u', 'l', 'l']]
  | .bool true => [['t', 'r', 'u', 'e']]
  | .bool false => [['f', 'a', 'l', 's', 'e']]
  | .integer i => [integerChars i]
  | .double x => [x.text.toList]
  | .string s => [quoted s]
  | .array [] => [['['], [']']]
  | .array (item :: rest) => ['['] :: (item.tokens ++ itemTokens rest ++ [[']']])
  | .object [] => [['\x7b'], ['\x7d']]
  | .object ((key, value) :: rest) =>
    ['\x7b'] :: quoted key :: [':'] :: (value.tokens ++ memberTokens rest ++ [['\x7d']])

/-- The tokens of the items behind the first. -/
def itemTokens : List Json → List (List Char)
  | [] => []
  | item :: rest => [','] :: (item.tokens ++ itemTokens rest)

/-- The tokens of the members behind the first. -/
def memberTokens : List (String × Json) → List (List Char)
  | [] => []
  | (key, value) :: rest =>
    [','] :: quoted key :: [':'] :: (value.tokens ++ memberTokens rest)

end

/-- The tokens in their order, with blanks before, between and behind them. -/
inductive Spaced : List (List Char) → List Char → Prop
  | done {blanks : List Char} (blank : ∀ c ∈ blanks, Document.isBlank c = true) : Spaced [] blanks
  | token {blanks token rest : List Char} {tokens : List (List Char)}
    (blank : ∀ c ∈ blanks, Document.isBlank c = true) (spaced : Spaced tokens rest) :
    Spaced (token :: tokens) (blanks ++ token ++ rest)

/-- The text spells the value, with blanks anywhere between its tokens. -/
def LaidOut (j : Json) (text : String) : Prop := Spaced j.tokens text.toList

section Compact

mutual

theorem flatten_tokens : ∀ j : Json, j.tokens.flatten = j.chars
  | .null | .bool true | .bool false | .integer _ | .double _ | .string _ => by
    rw [tokens, chars, List.flatten_singleton]
  | .array [] => by rw [tokens, chars]; rfl
  | .array (item :: rest) => by
    rw [tokens, chars]
    simp only [List.flatten_cons, List.flatten_append, List.flatten_nil, flatten_tokens item,
      flatten_itemTokens rest, List.append_nil, List.append_assoc]
  | .object [] => by rw [tokens, chars]; rfl
  | .object ((key, value) :: rest) => by
    rw [tokens, chars]
    simp only [List.flatten_cons, List.flatten_append, List.flatten_nil, flatten_tokens value,
      flatten_memberTokens rest, List.append_nil, List.append_assoc]

theorem flatten_itemTokens : ∀ items : List Json, (itemTokens items).flatten = itemChars items
  | [] => by rw [itemTokens, itemChars, List.flatten_nil]
  | item :: rest => by
    rw [itemTokens, itemChars]
    simp only [List.flatten_cons, List.flatten_append, flatten_tokens item,
      flatten_itemTokens rest, List.append_assoc]

theorem flatten_memberTokens : ∀ members : List (String × Json),
    (memberTokens members).flatten = memberChars members
  | [] => by rw [memberTokens, memberChars, List.flatten_nil]
  | (key, value) :: rest => by
    rw [memberTokens, memberChars]
    simp only [List.flatten_cons, List.flatten_append, flatten_tokens value,
      flatten_memberTokens rest, List.append_assoc]

end

theorem spaced_flatten (tokens : List (List Char)) : Spaced tokens tokens.flatten := by
  induction tokens with
  | nil => exact .done (by simp)
  | cons token rest ih => exact .token (List.forall_mem_nil _) ih

/-- The compact text is laid out without any blanks. -/
theorem laidOut_text (j : Json) : j.LaidOut j.text := by
  rw [LaidOut, text, String.toList_ofList, ← flatten_tokens]
  exact spaced_flatten j.tokens

/-- More blanks may stand behind a text. -/
theorem Spaced.append_blanks {tokens : List (List Char)} {text blanks : List Char}
    (h : Spaced tokens text) (hb : ∀ c ∈ blanks, Document.isBlank c = true) :
    Spaced tokens (text ++ blanks) := by
  induction h with
  | done hblank => exact .done (List.forall_mem_append.mpr ⟨hblank, hb⟩)
  | token hblank _ ih =>
    rw [List.append_assoc]
    exact .token hblank ih

end Compact

section Length

theorem itemTokens_ne_nil {items : List Json} (h : ∀ j ∈ items, ∀ token ∈ j.tokens, token ≠ []) :
    ∀ token ∈ itemTokens items, token ≠ [] := by
  induction items with
  | nil => exact List.forall_mem_nil _
  | cons item rest ih =>
    rw [List.forall_mem_cons] at h
    rw [itemTokens, List.forall_mem_cons, List.forall_mem_append]
    exact ⟨List.cons_ne_nil _ _, h.1, ih h.2⟩

theorem memberTokens_ne_nil {members : List (String × Json)}
    (h : ∀ m ∈ members, ∀ token ∈ m.2.tokens, token ≠ []) :
    ∀ token ∈ memberTokens members, token ≠ [] := by
  induction members with
  | nil => exact List.forall_mem_nil _
  | cons m rest ih =>
    rw [List.forall_mem_cons] at h
    rw [memberTokens, List.forall_mem_cons, List.forall_mem_cons, List.forall_mem_cons,
      List.forall_mem_append]
    exact ⟨List.cons_ne_nil _ _, List.cons_ne_nil _ _, List.cons_ne_nil _ _, h.1, ih h.2⟩

/-- No token of a finite value is empty. -/
theorem Finite.tokens_ne_nil {j : Json} (hj : j.Finite) : ∀ token ∈ j.tokens, token ≠ [] := by
  induction hj with
  | null => simp [tokens]
  | bool b => cases b <;> simp [tokens]
  | integer i =>
    obtain ⟨c, cs, hc, -⟩ := opening_spelling (proper_integerNumeral i)
    simp [tokens, ← spelling_integerNumeral, hc]
  | double hx =>
    obtain ⟨n, htext, -, hproper, -⟩ := Double.text_spells hx
    obtain ⟨c, cs, hc, -⟩ := opening_spelling hproper
    simp [tokens, htext, hc]
  | string s => simp [tokens, quoted]
  | @array items _ ih =>
    cases items with
    | nil => simp [tokens]
    | cons item rest =>
      rw [List.forall_mem_cons] at ih
      rw [tokens, List.forall_mem_cons, List.forall_mem_append, List.forall_mem_append]
      exact ⟨List.cons_ne_nil _ _, ⟨ih.1, itemTokens_ne_nil ih.2⟩, by simp⟩
  | @object members _ ih =>
    cases members with
    | nil => simp [tokens]
    | cons m rest =>
      rw [List.forall_mem_cons] at ih
      rw [tokens, List.forall_mem_cons, List.forall_mem_cons, List.forall_mem_cons,
        List.forall_mem_append, List.forall_mem_append]
      exact ⟨List.cons_ne_nil _ _, List.cons_ne_nil _ _, List.cons_ne_nil _ _,
        ⟨ih.1, memberTokens_ne_nil ih.2⟩, by simp⟩

theorem Spaced.length_le {tokens : List (List Char)} {text : List Char} (h : Spaced tokens text)
    (hne : ∀ token ∈ tokens, token ≠ []) : tokens.length ≤ text.length := by
  induction h with
  | done => exact Nat.zero_le _
  | @token blanks token rest tokens _ _ ih =>
    have htoken := List.length_pos_of_ne_nil (hne token List.mem_cons_self)
    have hrest := ih (fun t ht => hne t (List.mem_cons_of_mem _ ht))
    simp only [List.length_cons, List.length_append]
    omega

end Length

end Json

end PropertyGraph
