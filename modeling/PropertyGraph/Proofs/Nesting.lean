import PropertyGraph.Proofs.JsonLayout
import PropertyGraph.Proofs.QueryToken

namespace PropertyGraph

open Document

namespace Document

/-- The nesting of the document is at most so deep, and its integers have at most 64 bits. -/
inductive Fits : Nat → Document → Prop
  | unreadable (n : Nat) : Fits n .unreadable
  | null (n : Nat) : Fits n .null
  | bool (n : Nat) (b : Bool) : Fits n (.bool b)
  | integer (n : Nat) {i : Int} (low : -2 ^ 63 ≤ i) (high : i < 2 ^ 64) : Fits n (.integer i)
  | double (n : Nat) (x : Double) : Fits n (.double x)
  | string (n : Nat) (s : String) : Fits n (.string s)
  | array {n : Nat} {items : List Document} (h : ∀ d ∈ items, Fits n d) :
    Fits (n + 1) (.array items)
  | object {n : Nat} {members : List (String × Document)} (h : ∀ m ∈ members, Fits n m.2) :
    Fits (n + 1) (.object members)

/-- A document that stands at some depth fits in what is left of the limit. -/
theorem inherited_fits : Inherited (fun depth d => d.Fits (depthLimit - depth)) where
  unreadable _ := .unreadable _
  null _ := .null _
  bool _ b := .bool _ b
  numeral _ n := by
    obtain h | ⟨x, -, h⟩ | ⟨i, hlow, hhigh, h⟩ := ofNumeral_cases n
    · exact h ▸ .unreadable _
    · exact h ▸ .double _ x
    · exact h ▸ .integer _ hlow hhigh
  string _ s := .string _ s
  array {depth} hd _ h := by
    rw [show depthLimit - depth = depthLimit - (depth + 1) + 1 by omega]
    exact .array h
  object {depth} hd _ h := by
    rw [show depthLimit - depth = depthLimit - (depth + 1) + 1 by omega]
    exact .object h

theorem fits_of_parse? {text : String} {d : Document} (h : parse? text = some d) :
    d.Fits depthLimit := inherited_fits.of_parse? h

theorem Fits.of_mem_parts {n : Nat} {d : Document} (h : d.Fits (n + 1)) :
    ∀ p ∈ d.parts, p.Fits n := by
  cases h with
  | array h => exact h
  | object h => exact List.forall_mem_map.mpr h
  | _ => exact List.forall_mem_nil _

end Document

theorem Value.fits_toJson_ofInteger {i : Int} (n : Nat) : (ofInteger i).toJson.Fits n := by
  unfold ofInteger
  split
  · have hlow := (Int64.ofInt i).le_toInt
    have hhigh := (Int64.ofInt i).toInt_lt
    exact .integer n (by omega) (by omega)
  · unfold toJson Json.ofDouble
    split
    · exact .double n _
    · exact .null n

/-- A value is written with no more nesting than it was read with. -/
theorem Value.fits_toJson_ofJson {n : Nat} {d : Document} (hd : d.Fits n) :
    ∀ {j : Json}, d.json? = some j → (ofJson j).toJson.Fits n := by
  induction hd with
  | unreadable => rintro _ ⟨⟩
  | null n => rintro _ ⟨⟩; exact .null n
  | bool n b => rintro _ ⟨⟩; exact .bool n b
  | integer n => rintro _ ⟨⟩; exact fits_toJson_ofInteger n
  | double n x =>
    rintro _ ⟨⟩
    rw [ofJson, toJson, Json.ofDouble]
    split
    · exact .double n x
    · exact .null n
  | string n s => rintro _ ⟨⟩; exact .string n s
  | array h ih =>
    intro j hj
    simp only [Document.json?, Option.map_eq_some_iff, Document.itemsJson?_eq_mapM] at hj
    obtain ⟨js, hjs, rfl⟩ := hj
    rw [ofJson, itemsOfJson_eq_map, toJson, itemsToJson_eq_map, List.map_map]
    refine .array (List.forall_mem_map.mpr (fun j hj => ?_))
    obtain ⟨d, hd, hdj⟩ := exists_of_mapM hjs hj
    exact ih d hd hdj
  | object h ih =>
    intro j hj
    simp only [Document.json?, Option.map_eq_some_iff] at hj
    obtain ⟨ms, hms, rfl⟩ := hj
    rw [ofJson, entriesOfJson_eq_mapValues, toJson, entriesToJson_eq_mapValues,
      Entries.mapValues_mapValues]
    refine .object (List.forall_mem_map.mpr (fun m hm => ?_))
    obtain ⟨d, hd, hdj⟩ :=
      Document.exists_of_membersJson? hms (SortedEntries.mem_of_mem_ofList hm)
    exact ih _ hd hdj

section Constraints

variable {n : Nat} {fields : List (String × Document)} {filter : Option Value} {limit : Option Nat}

theorem limit_lt_of_read (hf : ∀ m ∈ fields, m.2.Fits n) {k : Nat}
    (h : orAbsent? "limit" natural? fields = some (some k)) : (k : Int) < 2 ^ 64 := by
  obtain ⟨d, hd, -, hread⟩ := exists_of_orAbsent? h
  cases hf _ hd with
  | @integer _ i _ high =>
    cases i with
    | ofNat i => obtain rfl : i = k := Option.some.inj hread; exact high
    | negSucc i => cases hread
  | _ => cases hread

/-- A filter and a limit are written with no more nesting than they were read with. -/
theorem fits_constraintMembers (hf : ∀ m ∈ fields, m.2.Fits n)
    (hfilter : orAbsent? "filter" Value.ofDocument? fields = some filter)
    (hlimit : orAbsent? "limit" natural? fields = some limit) :
    ∀ m ∈ constraintMembers filter limit, m.2.Fits n := by
  refine forall_constraintMembers ?_ ?_
  · rintro f rfl
    obtain ⟨d, hd, -, hread⟩ := exists_of_orAbsent? hfilter
    rw [Value.ofDocument?, Option.map_eq_some_iff] at hread
    obtain ⟨j, hj, rfl⟩ := hread
    exact Value.fits_toJson_ofJson (hf _ hd) hj
  · rintro k rfl
    exact .integer n (by omega) (limit_lt_of_read hf hlimit)

end Constraints

namespace Selection

variable {n : Nat}

/-- The members of a selection, where those of its connections fit one level further in. -/
theorem fits_members {s : Selection Value} (h : ∀ b ∈ s.branches, b.2.toJson.Fits n) :
    ∀ m ∈ members s.propertyNames s.connectionMembers, m.2.Fits (n + 1) := by
  refine forall_members (P := fun j => j.Fits (n + 1))
    (.array (List.forall_mem_map.mpr (fun name _ => .string n name))) ?_
  rw [connectionMembers_eq]
  exact .object (List.forall_mem_map.mpr h)

/-- The connections of a record that fits are written so that they fit two levels further in. -/
theorem fits_of_connections?
    (hbranch : ∀ (d : Document) (b : Branch), d.Fits n → branch? d = some b → b.toJson.Fits n)
    {d : Document} (hd : d.Fits (n + 2)) {found : List (String × Branch)}
    (h : connections? d = some found) : ∀ b ∈ SortedEntries.ofList found, b.2.toJson.Fits n := by
  intro b hb
  have hmem := SortedEntries.mem_of_mem_ofList hb
  rcases eq_nil_or_branches?_of_connections? h with rfl | ⟨p, hp, hbranches⟩
  · cases hmem
  · obtain ⟨p', hp', hread⟩ := exists_of_branches? hbranches hmem
    exact hbranch p' b.2 ((hd.of_mem_parts p hp).of_mem_parts p' hp') hread

/-- A connection is written with no more nesting than it was read with. Connections stand at every
other level, so one that could leave out its properties has room to write them. -/
theorem fits_of_branch? (k : Nat) {d : Document} (hd : d.Fits (2 * k)) {b : Branch}
    (h : branch? d = some b) : b.toJson.Fits (2 * k) := by
  induction k generalizing d b with
  | zero =>
    cases hd with
    | _ => cases h
  | succ k ih =>
    cases d with
    | object members =>
      simp only [branch?, Option.bind_eq_bind, Option.bind_eq_some_iff, Option.pure_def,
        Option.some.injEq] at h
      obtain ⟨found, hfound, fields, hfields, names, -, filter, hfilter, limit, hlimit, rfl⟩ := h
      have hf : ∀ m ∈ fields, m.2.Fits (2 * k + 1) :=
        fun m hm => Fits.of_mem_parts hd m.2 (mem_parts_of_flatFields? hfields m hm)
      refine .object (fun m hm => ?_)
      rcases List.mem_append.mp hm with hm | hm
      · refine fits_members ?_ m hm
        rw [branches_ofBranches]
        exact fits_of_connections? (fun _ _ hd h => ih hd h) (d := .object members) hd hfound
      · exact fits_constraintMembers hf hfilter hlimit m hm
    | _ => cases h

theorem fits_of_ofDocument? {k : Nat} {d : Document} (hd : d.Fits (2 * k + 2))
    {s : Selection Value} (h : ofDocument? d = some s) : s.toJson.Fits (2 * k + 2) := by
  simp only [ofDocument?, Option.bind_eq_bind, Option.bind_eq_some_iff, Option.pure_def,
    Option.some.injEq] at h
  obtain ⟨fields, -, names, -, found, hfound, rfl⟩ := h
  refine .object (fits_members ?_)
  rw [branches_ofBranches]
  exact fits_of_connections? (fun _ _ hd h => fits_of_branch? k hd h) hd hfound

end Selection

namespace Source

variable {n : Nat} {d : Document} {source : Source}

theorem fits_of_constrained? {key : String} {make : String → Option Value → Option Nat → Source}
    (hmake : ∀ text filter limit, (make text filter limit).toJson =
      .object ((key, .string text) :: constraintMembers filter limit))
    (hd : d.Fits (n + 1)) (h : constrained? key make d = some source) :
    source.toJson.Fits (n + 1) := by
  simp only [constrained?, Option.bind_eq_bind, Option.bind_eq_some_iff, Option.pure_def,
    Option.some.injEq] at h
  obtain ⟨fields, hfields, text, -, filter, hfilter, limit, hlimit, rfl⟩ := h
  have hf : ∀ m ∈ fields, m.2.Fits n :=
    fun m hm => hd.of_mem_parts m.2 (mem_parts_of_flatFields? hfields m hm)
  rw [hmake]
  exact .object (List.forall_mem_cons.mpr
    ⟨.string n text, fits_constraintMembers hf hfilter hlimit⟩)

theorem fits_of_ofDocument? (hd : d.Fits (n + 1)) (h : ofDocument? d = some source) :
    source.toJson.Fits (n + 1) := by
  simp only [ofDocument?, Option.orElse_eq_some, Option.map_eq_some_iff] at h
  rcases h with ⟨text, -, rfl⟩ | ⟨-, h | ⟨-, h⟩⟩
  · exact .string _ text
  · exact fits_of_constrained? (fun _ _ _ => rfl) hd h
  · exact fits_of_constrained? (fun _ _ _ => rfl) hd h

end Source

namespace Query

theorem fits_of_ofFields? {k : Nat} {fields : List (String × Document)}
    (hf : ∀ m ∈ fields, m.2.Fits (2 * k + 2)) {q : Query} (h : ofFields? fields = some q) :
    ∀ m ∈ q.toMembers, m.2.Fits (2 * k + 2) := by
  simp only [ofFields?, required?, Option.bind_eq_bind, Option.bind_eq_some_iff, Option.pure_def,
    Option.some.injEq] at h
  obtain ⟨select, ⟨d, hd, hselect⟩, sources, ⟨e, he, hfrom⟩, rfl⟩ := h
  have hsources : (Json.array (sources.map Source.toJson)).Fits (2 * k + 2) := by
    have hfits := hf _ (Entries.mem_of_get?_eq_some he)
    unfold list? at hfrom
    split at hfrom
    · refine .array (List.forall_mem_map.mpr (fun source hs => ?_))
      obtain ⟨d, hd, hread⟩ := exists_of_mapM hfrom hs
      exact Source.fits_of_ofDocument? (hfits.of_mem_parts d hd) hread
    · cases hfrom
  exact List.forall_mem_cons.mpr
    ⟨Selection.fits_of_ofDocument? (hf _ (Entries.mem_of_get?_eq_some hd)) hselect,
      List.forall_mem_singleton.mpr hsources⟩

/-- A query that a text denotes can be written within the limit, with any token. -/
theorem Written.fits {q : Query} (h : q.Written) (token : String) :
    (SignedQuery.toJson ⟨token, q⟩).Fits depthLimit := by
  have hmembers : ∀ m ∈ q.toMembers, m.2.Fits 126 := by
    cases h with
    | plain h =>
      simp only [Query.parse?, Query.ofDocument?, Option.bind_eq_some_iff] at h
      obtain ⟨d, hd, fields, hfields, h⟩ := h
      have hfits : d.Fits 127 := fits_of_parse? hd
      exact fits_of_ofFields? (k := 62)
        (fun m hm => hfits.of_mem_parts m.2 (mem_parts_of_fields? hfields m hm)) h
    | signed h =>
      simp only [SignedQuery.parse?, SignedQuery.ofDocument?, Option.bind_eq_bind,
        Option.bind_eq_some_iff, Option.pure_def, Option.some.injEq] at h
      obtain ⟨d, hd, fields, hfields, token, -, q, h, rfl⟩ := h
      have hfits : d.Fits 127 := fits_of_parse? hd
      exact fits_of_ofFields? (k := 62)
        (fun m hm => hfits.of_mem_parts m.2 (mem_parts_of_flatFields? hfields m hm)) h
  exact .object (List.forall_mem_cons.mpr ⟨.string 126 token, hmembers⟩)

end Query

end PropertyGraph
