import Mathlib
import PropertyGraph.Proofs.QueryText
import PropertyGraph.Proofs.Reading

namespace PropertyGraph

open Document

namespace Document

variable {names : List String} {fields : List (String × Document)} {d : Document}

theorem bounded_of_fields? (hd : d.Bounded) (h : fields? names d = some fields) :
    ∀ m ∈ fields, m.2.Bounded :=
  fun m hm => hd.of_mem_parts m.2 (mem_parts_of_fields? h m hm)

theorem bounded_of_flatFields? (hd : d.Bounded) (h : flatFields? names d = some fields) :
    ∀ m ∈ fields, m.2.Bounded :=
  fun m hm => hd.of_mem_parts m.2 (mem_parts_of_flatFields? h m hm)

theorem eq_null_of_ofDocument? (h : Value.ofDocument? d = some .null) : d = .null := by
  cases d with
  | null => rfl
  | integer i =>
    have hi : Value.ofInteger i = .null := Option.some.inj h
    unfold Value.ofInteger at hi
    split at hi <;> cases hi
  | array items =>
    simp only [Value.ofDocument?, json?, Option.map_map, Option.map_eq_some_iff] at h
    obtain ⟨_, _, h⟩ := h
    cases h
  | object members =>
    simp only [Value.ofDocument?, json?, Option.map_map, Option.map_eq_some_iff] at h
    obtain ⟨_, _, h⟩ := h
    cases h
  | _ => cases h

theorem writable_of_orAbsent? (hf : ∀ m ∈ fields, m.2.Bounded) {filter : Option Value}
    (h : orAbsent? "filter" Value.ofDocument? fields = some filter) : Writable filter := by
  rintro f rfl
  obtain ⟨d, hd, hnull, hread⟩ := exists_of_orAbsent? h
  exact ⟨Value.canonical_of_ofDocument? (hf _ hd) hread,
    fun hf' => hnull (eq_null_of_ofDocument? (hf' ▸ hread))⟩

end Document

namespace Selection

/-- What canonical connections are like: sorted and canonical themselves. -/
theorem canonical_ofBranches {names : List String} {found : List (String × Branch)}
    (h : ∀ b ∈ found, Writable b.2.filter ∧ b.2.inner.Canonical) :
    (ofBranches names (SortedEntries.ofList found)).Canonical := by
  constructor
  · rw [branches_ofBranches]
    exact SortedEntries.ascending_ofList found
  · rw [branches_ofBranches]
    exact fun b hb => (h b (SortedEntries.mem_of_mem_ofList hb)).1
  · rw [branches_ofBranches]
    exact fun b hb => (h b (SortedEntries.mem_of_mem_ofList hb)).2

/-- The connections of a record are those of a document in it, if there are any. -/
theorem eq_nil_or_branches?_of_connections? {d : Document} {found : List (String × Branch)}
    (h : connections? d = some found) :
    found = [] ∨ ∃ p ∈ d.parts, branches? p = some found := by
  cases d with
  | object members =>
    rw [connections?, memberConnections?_eq] at h
    split at h
    · exact .inl (Option.some.inj h).symm
    · next p hp => exact .inr ⟨p, List.mem_map_of_mem (Entries.mem_of_get?_eq_some hp), h⟩
  | array items =>
    rw [connections?] at h
    unfold itemConnections? at h
    split at h
    · next p _ => exact .inr ⟨p, by simp [parts], h⟩
    · exact .inl (Option.some.inj h).symm
  | _ => cases h

theorem exists_of_branches? {d : Document} {bs : List (String × Branch)}
    (h : branches? d = some bs) {b : String × Branch} (hb : b ∈ bs) :
    ∃ p ∈ d.parts, branch? p = some b.2 := by
  cases d with
  | object members =>
    rw [branches?, eachBranch?_eq_mapM] at h
    obtain ⟨m, hm, he⟩ := exists_of_mapM h hb
    rw [Option.map_eq_some_iff] at he
    obtain ⟨b', hb', rfl⟩ := he
    exact ⟨m.2, List.mem_map_of_mem hm, hb'⟩
  | _ => cases h

/-- A bounded document is read, as one connection or as some by name, only as canonical ones. -/
theorem canonical_of_read {d : Document} (hd : d.Bounded) :
    (∀ b, branch? d = some b → Writable b.filter ∧ b.inner.Canonical)
      ∧ ∀ bs, branches? d = some bs → ∀ b ∈ bs, Writable b.2.filter ∧ b.2.inner.Canonical := by
  induction hd with
  | @object members hm ih =>
    have hconnections : ∀ bs, memberConnections? members = some bs →
        ∀ b ∈ bs, Writable b.2.filter ∧ b.2.inner.Canonical := by
      intro bs h
      rcases eq_nil_or_branches?_of_connections? (d := .object members) h with rfl | ⟨p, hp, hbs⟩
      · exact List.forall_mem_nil _
      · obtain ⟨m, hm', rfl⟩ := List.mem_map.mp hp
        exact (ih m hm').2 bs hbs
    constructor
    · intro b h
      simp only [branch?, Option.bind_eq_bind, Option.bind_eq_some_iff, Option.pure_def,
        Option.some.injEq] at h
      obtain ⟨found, hfound, fields, hfields, names, -, filter, hfilter, limit, -, rfl⟩ := h
      exact ⟨writable_of_orAbsent? (bounded_of_flatFields? (.object hm) hfields) hfilter,
        canonical_ofBranches (hconnections _ hfound)⟩
    · intro bs h b hb
      obtain ⟨p, hp, hread⟩ := exists_of_branches? h hb
      obtain ⟨m, hm', rfl⟩ := List.mem_map.mp hp
      exact (ih m hm').1 b.2 hread
  | _ =>
    constructor
    · rintro _ ⟨⟩
    · rintro _ ⟨⟩

theorem canonical_of_ofDocument? {d : Document} (hd : d.Bounded) {s : Selection Value}
    (h : ofDocument? d = some s) : s.Canonical := by
  simp only [ofDocument?, Option.bind_eq_bind, Option.bind_eq_some_iff, Option.pure_def,
    Option.some.injEq] at h
  obtain ⟨fields, -, names, -, found, hfound, rfl⟩ := h
  refine canonical_ofBranches ?_
  rcases eq_nil_or_branches?_of_connections? hfound with rfl | ⟨p, hp, hbranches⟩
  · exact List.forall_mem_nil _
  · exact (canonical_of_read (hd.of_mem_parts p hp)).2 found hbranches

end Selection

namespace Source

variable {d : Document}

theorem canonical_of_constrained? {key : String}
    {make : String → Option Value → Option Nat → Source}
    (hm : ∀ text filter limit, Writable filter → (make text filter limit).Canonical)
    (hd : d.Bounded) {source : Source} (h : constrained? key make d = some source) :
    source.Canonical := by
  simp only [constrained?, Option.bind_eq_bind, Option.bind_eq_some_iff, Option.pure_def,
    Option.some.injEq] at h
  obtain ⟨fields, hfields, text, -, filter, hfilter, limit, -, rfl⟩ := h
  exact hm text filter limit (writable_of_orAbsent? (bounded_of_flatFields? hd hfields) hfilter)

theorem canonical_of_ofDocument? (hd : d.Bounded) {source : Source}
    (h : ofDocument? d = some source) : source.Canonical := by
  simp only [ofDocument?, Option.orElse_eq_some, Option.map_eq_some_iff] at h
  rcases h with ⟨text, -, rfl⟩ | ⟨-, h | ⟨-, h⟩⟩
  · exact .name text
  · exact canonical_of_constrained? (fun text _ limit hw => .hop text hw limit) hd h
  · exact canonical_of_constrained? (fun text _ limit hw => .seed text hw limit) hd h

end Source

namespace Query

theorem canonical_of_ofFields? {fields : List (String × Document)}
    (hf : ∀ m ∈ fields, m.2.Bounded) {q : Query} (h : ofFields? fields = some q) :
    q.Canonical := by
  simp only [ofFields?, required?, Option.bind_eq_bind, Option.bind_eq_some_iff, Option.pure_def,
    Option.some.injEq] at h
  obtain ⟨select, ⟨d, hd, hselect⟩, sources, ⟨e, he, hfrom⟩, rfl⟩ := h
  refine ⟨Selection.canonical_of_ofDocument? (hf _ (Entries.mem_of_get?_eq_some hd)) hselect, ?_⟩
  intro source hs
  have hb := hf _ (Entries.mem_of_get?_eq_some he)
  unfold list? at hfrom
  split at hfrom
  · obtain ⟨d, hd, hread⟩ := exists_of_mapM hfrom hs
    cases hb with
    | array hi => exact Source.canonical_of_ofDocument? (hi d hd) hread
  · cases hfrom

end Query

/-- The queries that texts denote, on their own or in a signed query. -/
inductive Query.Written : Query → Prop
  | plain {text : String} {q : Query} (h : Query.parse? text = some q) : Query.Written q
  | signed {text : String} {q : SignedQuery} (h : SignedQuery.parse? text = some q) :
    Query.Written q.query

theorem Query.Written.canonical {q : Query} (h : q.Written) : q.Canonical := by
  cases h with
  | plain h =>
    simp only [Query.parse?, Query.ofDocument?, Option.bind_eq_some_iff] at h
    obtain ⟨d, hd, fields, hfields, h⟩ := h
    exact canonical_of_ofFields? (bounded_of_fields? (bounded_of_parse? hd) hfields) h
  | signed h =>
    simp only [SignedQuery.parse?, SignedQuery.ofDocument?, Option.bind_eq_bind,
      Option.bind_eq_some_iff, Option.pure_def, Option.some.injEq] at h
    obtain ⟨d, hd, fields, hfields, token, -, q, h, rfl⟩ := h
    exact canonical_of_ofFields? (bounded_of_flatFields? (bounded_of_parse? hd) hfields) h

/-- The canonical bytes of a query determine it. -/
theorem Query.Canonical.canonicalBytes_inj {q q' : Query} (h : q.Canonical) (h' : q'.Canonical)
    (hb : q.toJson.canonicalBytes = q'.toJson.canonicalBytes) : q = q' := by
  have hsorted := h.finite.canonicalBytes_inj h'.finite hb
  have hread := h.ofDocument?_eq (spells_ofJson h.finite)
  rw [hsorted, h'.ofDocument?_eq (spells_ofJson h'.finite)] at hread
  exact (Option.some.inj hread).symm

/-- A token that was issued for one query is genuine for another only if the two
queries have different canonical bytes with the same tag. -/
theorem Query.genuine_token_binds (secret : List UInt8) {issued held : Query}
    (hi : issued.Written) (hh : held.Written) :
    (held.toJson.canonicalBytes = issued.toJson.canonicalBytes ↔ held = issued)
      ∧ (SignedQuery.isGenuine secret ⟨(issued.sign secret).token, held⟩ = true ↔
        held = issued
          ∨ (held.toJson.canonicalBytes ≠ issued.toJson.canonicalBytes
            ∧ Hmac.tag secret held.toJson.canonicalBytes =
              Hmac.tag secret issued.toJson.canonicalBytes)) := by
  have hinj : held.toJson.canonicalBytes = issued.toJson.canonicalBytes ↔ held = issued :=
    ⟨hh.canonical.canonicalBytes_inj hi.canonical, fun h => h ▸ rfl⟩
  refine ⟨hinj, ?_⟩
  rw [SignedQuery.isGenuine, Query.sign, Json.verifies_token]
  constructor
  · intro htag
    by_cases hb : held.toJson.canonicalBytes = issued.toJson.canonicalBytes
    · exact Or.inl (hinj.mp hb)
    · exact Or.inr ⟨hb, htag.symm⟩
  · rintro (rfl | ⟨-, htag⟩)
    · rfl
    · exact htag.symm

namespace Query

/-- The likes of one vertex, but only those of some age. -/
def likesOfAge : Query :=
  ⟨.connect "likes" (.properties []) (some (.map [("age", .int 1)])) none (.properties []),
    [.name "v1"]⟩

/-- All the likes of the vertex. -/
def allLikes : Query :=
  ⟨.connect "likes" (.properties []) none none (.properties []), [.name "v1"]⟩

/-- Who drops the filter of a query needs a second canonical text with its tag. -/
theorem dropped_filter_shows :
    likesOfAge.Written ∧ allLikes.Written ∧ allLikes ≠ likesOfAge
      ∧ (SignedQuery.isGenuine [7] ⟨(likesOfAge.sign [7]).token, allLikes⟩ = true →
        allLikes.toJson.canonicalBytes ≠ likesOfAge.toJson.canonicalBytes
          ∧ Hmac.tag [7] allLikes.toJson.canonicalBytes =
            Hmac.tag [7] likesOfAge.toJson.canonicalBytes) := by
  have hi : parse? ("\x7b\"from\":[\"v1\"],\"select\":\x7b\"connections\":"
      ++ "\x7b\"likes\":\x7b\"filter\":\x7b\"age\":1\x7d\x7d\x7d\x7d\x7d") = some likesOfAge := by
    cbv
  have hh : parse? ("\x7b\"from\":[\"v1\"],\"select\":\x7b\"connections\":"
      ++ "\x7b\"likes\":\x7b\x7d\x7d\x7d\x7d") = some allLikes := by
    cbv
  have hne : allLikes ≠ likesOfAge := by
    intro h
    cases h
  refine ⟨.plain hi, .plain hh, hne, fun hg => ?_⟩
  exact ((genuine_token_binds [7] (.plain hi) (.plain hh)).2.mp hg).resolve_left hne

end Query

end PropertyGraph
