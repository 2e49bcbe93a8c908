import PropertyGraph.Proofs.ValueText
import PropertyGraph.Query.Json

namespace PropertyGraph

open Document

/-- A filter that JSON can carry: null would mean that there is none. -/
def Writable (filter : Option Value) : Prop := ∀ f, filter = some f → f.Canonical ∧ f ≠ .null

namespace Selection

/-- The connections of a selection. -/
def branches : Selection Value → List (String × Branch)
  | properties _ => []
  | connect name inner filter limit rest => (name, ⟨inner, filter, limit⟩) :: rest.branches

/-- At every depth the connections come by ascending name, and their filters can be written. -/
inductive Canonical : Selection Value → Prop
  | mk {s : Selection Value} (ascending : SortedEntries.Ascending s.branches)
    (written : ∀ b ∈ s.branches, Writable b.2.filter)
    (inner : ∀ b ∈ s.branches, Canonical b.2.inner) : Canonical s

@[simp] theorem branches_ofBranches (names : List String) (bs : List (String × Branch)) :
    (ofBranches names bs).branches = bs := by
  induction bs with
  | nil => rfl
  | cons b bs ih => exact congrArg (b :: ·) ih

theorem ofBranches_branches (s : Selection Value) :
    ofBranches s.propertyNames s.branches = s := by
  induction s with
  | properties names => rfl
  | connect name inner filter limit rest _ ih =>
    exact congrArg (connect name inner filter limit) ih

end Selection

/-- The JSON of a connection: of what it selects, and of its constraints. -/
def Branch.toJson (b : Branch) : Json :=
  .object (Selection.members b.inner.propertyNames b.inner.connectionMembers
    ++ constraintMembers b.filter b.limit)

theorem Selection.connectionMembers_eq (s : Selection Value) :
    s.connectionMembers = Entries.mapValues Branch.toJson s.branches := by
  induction s with
  | properties names => rfl
  | connect name inner filter limit rest _ ih =>
    rw [Selection.connectionMembers, ih]
    rfl

/-- Sources whose filters can be written. -/
inductive Source.Canonical : Source → Prop
  | name (text : String) : Canonical (.name text)
  | hop (what : String) {filter : Option Value} (h : Writable filter) (limit : Option Nat) :
    Canonical (.hop what filter limit)
  | seed (type : String) {filter : Option Value} (h : Writable filter) (limit : Option Nat) :
    Canonical (.seed type filter limit)

structure Query.Canonical (q : Query) : Prop where
  select : q.select.Canonical
  sources : ∀ source ∈ q.sources, source.Canonical

namespace Document

variable {α : Type} {names : List String} {name : String} {fields : List (String × Document)}
  {given : List (String × Json)} {read : Document → Option α} {toJson : α → Json}

/-- Under each of the names, the fields have a document for the given value, or nothing where
nothing is given. -/
structure FieldsSpell (names : List String) (fields : List (String × Document))
    (given : List (String × Json)) : Prop where
  present : ∀ {name : String} {j : Json}, name ∈ names → Entries.get? name given = some j →
    ∃ d, Entries.get? name fields = some d ∧ d.Spells j
  absent : ∀ {name : String}, name ∈ names → Entries.get? name given = none →
    Entries.get? name fields = none

theorem get?_filter_keys (hn : name ∈ names) (members : List (String × Document)) :
    Entries.get? name (members.filter (fun m => names.contains m.1)) =
      Entries.get? name members := by
  induction members with
  | nil => rfl
  | cons m members ih =>
    obtain ⟨key, d⟩ := m
    by_cases hk : key = name
    · subst hk
      simp [Entries.get?, hn]
    · by_cases hm : key ∈ names <;> simp_all [Entries.get?]

/-- The known members of an object that spells a value spell that value's members. -/
theorem SpellsMembers.known?_eq {members : List (String × Document)}
    (h : SpellsMembers members given) (names : List String) :
    ∃ fields, known? names members = some fields ∧ FieldsSpell names fields given := by
  have hnodup : ((members.filter (fun m => names.contains m.1)).map Prod.fst).Nodup :=
    h.nodup.sublist (List.filter_sublist.map _)
  refine ⟨_, if_pos hnodup, ?_, ?_⟩
  · intro name j hn hj
    rw [get?_filter_keys hn]
    exact h.present hj
  · intro name hn hj
    rw [get?_filter_keys hn]
    exact h.absent hj

theorem FieldsSpell.required?_eq (h : FieldsSpell names fields given) (hn : name ∈ names)
    {j : Json} (hj : Entries.get? name given = some j) {a : α}
    (hread : ∀ d : Document, d.Spells j → read d = some a) :
    required? name read fields = some a := by
  obtain ⟨d, hd, hs⟩ := h.present hn hj
  rw [required?, hd, Option.bind_some, hread d hs]

theorem FieldsSpell.required?_eq_none (h : FieldsSpell names fields given) (hn : name ∈ names)
    (hj : Entries.get? name given = none) : required? name read fields = none := by
  rw [required?, h.absent hn hj, Option.bind_none]

theorem optional?_of_ne_null {d : Document} (h : d ≠ .null) :
    optional? read d = (read d).map some := by
  cases d with
  | null => exact absurd rfl h
  | _ => rfl

/-- An optional field is read if its value is, provided that no value is written as null. -/
theorem FieldsSpell.orAbsent?_eq (h : FieldsSpell names fields given) (hn : name ∈ names)
    {a : Option α} (hj : Entries.get? name given = a.map toJson)
    (hread : ∀ x, a = some x → ∀ d : Document, d.Spells (toJson x) →
      read d = some x ∧ d ≠ .null) :
    orAbsent? name read fields = some a := by
  unfold orAbsent? orDefault?
  cases a with
  | none => rw [h.absent hn hj]
  | some x =>
    obtain ⟨d, hd, hs⟩ := h.present hn hj
    obtain ⟨hx, hnull⟩ := hread x rfl d hs
    simp only [hd, optional?_of_ne_null hnull, hx, Option.map_some]

theorem list?_eq {items : List α} {d : Document} (h : d.Spells (.array (items.map toJson)))
    (hread : ∀ a ∈ items, ∀ d : Document, d.Spells (toJson a) → read d = some a) :
    list? read d = some items := by
  obtain ⟨ds, rfl, hds⟩ := h.eq_array
  rw [List.forall₂_map_right_iff] at hds
  rw [list?, mapM_eq_some_iff]
  clear h
  induction hds with
  | nil => exact .nil
  | cons hd _ ih =>
    exact .cons (hread _ List.mem_cons_self _ hd)
      (ih (fun a ha => hread a (List.mem_cons_of_mem _ ha)))

theorem Spells.ne_null {d : Document} {j : Json} (h : d.Spells j) (hj : j.sorted ≠ .null) :
    d ≠ .null := by
  rintro rfl
  exact hj (Option.some.inj h.denotes).symm

theorem FieldsSpell.filter?_eq (h : FieldsSpell names fields given) (hn : "filter" ∈ names)
    {filter : Option Value} (hj : Entries.get? "filter" given = filter.map Value.toJson)
    (hw : Writable filter) : orAbsent? "filter" Value.ofDocument? fields = some filter := by
  refine h.orAbsent?_eq hn hj (fun f hf d hd => ?_)
  obtain ⟨hcanonical, hnull⟩ := hw f hf
  refine ⟨hcanonical.ofDocument?_eq hd, hd.ne_null (fun hj => hnull ?_)⟩
  rw [← hcanonical.ofJson_toJson, hj]
  rfl

theorem FieldsSpell.limit?_eq (h : FieldsSpell names fields given) (hn : "limit" ∈ names)
    {limit : Option Nat}
    (hj : Entries.get? "limit" given = limit.map (fun n : Nat => Json.integer n)) :
    orAbsent? "limit" natural? fields = some limit := by
  refine h.orAbsent?_eq hn hj (fun n _ d hd => ?_)
  rw [hd.eq_integer]
  exact ⟨rfl, by simp⟩

end Document

section Constraints

variable {names : List String} {fields : List (String × Document)}

theorem get?_filter_constraints (filter : Option Value) (limit : Option Nat) :
    Entries.get? "filter" (constraintMembers filter limit) = filter.map Value.toJson := by
  cases filter <;> cases limit <;> rfl

theorem get?_limit_constraints (filter : Option Value) (limit : Option Nat) :
    Entries.get? "limit" (constraintMembers filter limit) =
      limit.map (fun n : Nat => Json.integer n) := by
  cases filter <;> cases limit <;> rfl

theorem get?_constraints {name : String} (hf : name ≠ "filter") (hl : name ≠ "limit")
    (filter : Option Value) (limit : Option Nat) :
    Entries.get? name (constraintMembers filter limit) = none := by
  cases filter <;> cases limit <;> simp [constraintMembers, Entries.get?, hf.symm, hl.symm]

theorem keys_constraints_sublist (filter : Option Value) (limit : Option Nat) :
    ((constraintMembers filter limit).map Prod.fst).Sublist ["filter", "limit"] := by
  cases filter <;> cases limit <;> simp [constraintMembers]

end Constraints

namespace Selection

variable {names : List String} {connections : List (String × Json)}
  {extra : List (String × Json)}

theorem get?_properties_members (names : List String) (connections extra : List (String × Json)) :
    Entries.get? "properties" (members names connections ++ extra) =
      some (.array (names.map .string)) := rfl

theorem get?_connections_members (names : List String) (connections : List (String × Json))
    (hx : Entries.get? "connections" extra = none) :
    Entries.get? "connections" (members names connections ++ extra) =
      if connections.isEmpty then none else some (.object connections) := by
  unfold members
  split
  · simpa [Entries.get?] using hx
  · simp [Entries.get?]

theorem get?_members {name : String} (hp : name ≠ "properties") (hc : name ≠ "connections") :
    Entries.get? name (members names connections ++ extra) = Entries.get? name extra := by
  unfold members
  split <;> simp [Entries.get?, hp.symm, hc.symm]

theorem keys_members_sublist (names : List String) (connections : List (String × Json)) :
    ((members names connections).map Prod.fst).Sublist ["properties", "connections"] := by
  unfold members
  split <;> simp

theorem memberConnections?_eq (members : List (String × Document)) :
    memberConnections? members =
      match Entries.get? "connections" members with
      | none => some []
      | some d => branches? d := by
  induction members with
  | nil => rfl
  | cons m members ih =>
    obtain ⟨key, d⟩ := m
    rw [memberConnections?, Entries.get?, ih]
    by_cases hk : key = "connections" <;> simp [hk]

theorem eachBranch?_eq_mapM (members : List (String × Document)) :
    eachBranch? members =
      members.mapM (fun m => (branch? m.2).map (fun b => (m.1, b))) := by
  induction members with
  | nil => rfl
  | cons m members ih =>
    obtain ⟨key, d⟩ := m
    rw [eachBranch?, List.mapM_cons, ih]
    cases branch? d <;> rfl

/-- Connections that are read in any order are sorted to the ascending ones that they spell. -/
theorem eachBranch?_eq {bs : List (String × Branch)} (ha : SortedEntries.Ascending bs)
    (hread : ∀ b ∈ bs, ∀ d : Document, d.Spells b.2.toJson → branch? d = some b.2)
    {members : List (String × Document)}
    (h : SpellsMembers members (Entries.mapValues Branch.toJson bs)) :
    ∃ found, eachBranch? members = some found ∧ SortedEntries.ofList found = bs := by
  have hmember : ∀ m ∈ members, ∃ e, (branch? m.2).map (fun b => (m.1, b)) = some e
      ∧ e.1 = m.1 ∧ e ∈ bs := by
    intro m hm
    have hlook := Entries.get?_eq_some_of_mem h.nodup (v := m.2) hm
    cases hg : Entries.get? m.1 bs with
    | none =>
      rw [h.absent (by rw [Entries.get?_mapValues, hg, Option.map_none])] at hlook
      cases hlook
    | some b =>
      obtain ⟨d, hd, hs⟩ := h.present (by rw [Entries.get?_mapValues, hg, Option.map_some])
      obtain rfl : d = m.2 := Option.some.inj (hd.symm.trans hlook)
      have hb := Entries.mem_of_get?_eq_some hg
      exact ⟨(m.1, b), by rw [hread _ hb _ hs, Option.map_some], rfl, hb⟩
  obtain ⟨found, hfound, hrel⟩ := exists_mapM_eq_some hmember
  have hkeys : members.map Prod.fst = found.map Prod.fst := by
    rw [← List.forall₂_eq_eq_eq, List.forall₂_map_left_iff, List.forall₂_map_right_iff]
    exact hrel.imp (fun _ _ hr => hr.1.symm)
  have hsub : ∀ e ∈ found, e ∈ bs := by
    intro e he
    obtain ⟨m, hm, hme⟩ := exists_of_mapM hfound he
    obtain ⟨e', he', -, hb⟩ := hmember m hm
    exact Option.some.inj (he'.symm.trans hme) ▸ hb
  refine ⟨found, by rw [eachBranch?_eq_mapM, hfound], ?_⟩
  refine SortedEntries.ofList_eq_of_get? (hkeys ▸ h.nodup) ha (fun k => ?_)
  cases hk : Entries.get? k found with
  | some b =>
    have hb := hsub _ (Entries.mem_of_get?_eq_some hk)
    rw [Entries.get?_eq_some_of_mem ha.nodup hb]
  | none =>
    cases hg : Entries.get? k bs with
    | none => rfl
    | some b =>
      obtain ⟨d, hd, -⟩ := h.present (by rw [Entries.get?_mapValues, hg, Option.map_some])
      rw [Entries.get?_eq_none_iff, ← hkeys, ← Entries.get?_eq_none_iff, hd] at hk
      cases hk

/-- The connections of an object that spells a selection, possibly among other members. -/
theorem memberConnections?_spelled {s : Selection Value}
    (ha : SortedEntries.Ascending s.branches)
    (hread : ∀ b ∈ s.branches, ∀ d : Document, d.Spells b.2.toJson → branch? d = some b.2)
    {members : List (String × Document)} (hx : Entries.get? "connections" extra = none)
    (h : SpellsMembers members
      (Selection.members s.propertyNames s.connectionMembers ++ extra)) :
    ∃ found, memberConnections? members = some found
      ∧ SortedEntries.ofList found = s.branches := by
  have hget := get?_connections_members s.propertyNames s.connectionMembers hx
  rw [memberConnections?_eq]
  split at hget
  · next hempty =>
    rw [h.absent hget]
    have hnone : s.branches = [] := by
      rw [connectionMembers_eq, List.isEmpty_iff] at hempty
      exact List.map_eq_nil_iff.mp hempty
    exact ⟨[], rfl, hnone.symm⟩
  · obtain ⟨d, hd, hs⟩ := h.present hget
    rw [connectionMembers_eq] at hs
    obtain ⟨inner, rfl, hinner⟩ := hs.eq_object (by
      rw [Entries.keys_mapValues]
      exact ha.nodup)
    rw [hd]
    exact eachBranch?_eq ha hread hinner

theorem names?_eq {fieldNames names : List String} {fields : List (String × Document)}
    {given : List (String × Json)} (h : FieldsSpell fieldNames fields given)
    (hn : "properties" ∈ fieldNames)
    (hj : Entries.get? "properties" given = some (.array (names.map .string))) :
    names? fields = some names := by
  obtain ⟨d, hd, hs⟩ := h.present hn hj
  unfold names? orDefault?
  rw [hd]
  refine list?_eq hs (fun name _ d hd => ?_)
  rw [hd.eq_string]
  rfl

theorem nodup_keys_branch (b : Branch) :
    ((Selection.members b.inner.propertyNames b.inner.connectionMembers
      ++ constraintMembers b.filter b.limit).map Prod.fst).Nodup := by
  rw [List.map_append]
  exact List.Nodup.sublist ((keys_members_sublist _ _).append (keys_constraints_sublist _ _))
    (by decide)

/-- A connection is read back once the connections of what it selects are. -/
theorem branch?_eq {b : Branch} (hw : Writable b.filter)
    (ha : SortedEntries.Ascending b.inner.branches)
    (hread : ∀ c ∈ b.inner.branches, ∀ d : Document, d.Spells c.2.toJson → branch? d = some c.2)
    {d : Document} (h : d.Spells b.toJson) : branch? d = some b := by
  obtain ⟨members, rfl, hmembers⟩ := h.eq_object (nodup_keys_branch b)
  obtain ⟨found, hfound, hsorted⟩ := memberConnections?_spelled ha hread
    (get?_constraints (by decide) (by decide) _ _) hmembers
  obtain ⟨fields, hknown, hfields⟩ :=
    hmembers.known?_eq ["properties", "connections", "filter", "limit"]
  have hflat : flatFields? ["properties", "connections", "filter", "limit"] (.object members) =
      some fields := by
    rw [flatFields?, readable, h.denotes, Option.isSome_some, if_pos rfl, hknown]
  have hnames := names?_eq hfields (by decide) (get?_properties_members _ _ _)
  have hfilter := hfields.filter?_eq (by decide)
    ((get?_members (by decide) (by decide)).trans (get?_filter_constraints _ _)) hw
  have hlimit := hfields.limit?_eq (by decide)
    ((get?_members (by decide) (by decide)).trans (get?_limit_constraints _ _))
  simp only [branch?, hfound, hflat, hnames, hfilter, hlimit, hsorted, ofBranches_branches,
    Option.bind_eq_bind, Option.bind_some, Option.pure_def]

theorem Canonical.branch?_eq {s : Selection Value} (h : s.Canonical) :
    ∀ b ∈ s.branches, ∀ d : Document, d.Spells b.2.toJson → branch? d = some b.2 := by
  induction h with
  | mk ascending written inner ih =>
    intro b hb d hd
    have ha : SortedEntries.Ascending b.2.inner.branches := by
      cases inner b hb with
      | mk ha _ _ => exact ha
    exact Selection.branch?_eq (written b hb) ha (ih b hb) hd

theorem Canonical.ascending {s : Selection Value} (h : s.Canonical) :
    SortedEntries.Ascending s.branches := by
  cases h with
  | mk ascending _ _ => exact ascending

/-- Whatever spells a canonical selection is read as the selection. -/
theorem Canonical.ofDocument?_eq {s : Selection Value} (h : s.Canonical) {d : Document}
    (hd : d.Spells s.toJson) : ofDocument? d = some s := by
  have hnodup : (s.toMembers.map Prod.fst).Nodup :=
    List.Nodup.sublist (keys_members_sublist _ _) (by decide)
  obtain ⟨members, rfl, hmembers⟩ := hd.eq_object hnodup
  obtain ⟨fields, hknown, hfields⟩ := hmembers.known?_eq ["properties", "connections"]
  rw [Selection.toMembers, ← List.append_nil (Selection.members _ _)] at hmembers
  obtain ⟨found, hfound, hsorted⟩ :=
    memberConnections?_spelled h.ascending h.branch?_eq rfl hmembers
  have hnames := names?_eq hfields (by decide) rfl
  simp only [ofDocument?, fields?, hknown, hnames, connections?, hfound, hsorted,
    ofBranches_branches, Option.bind_eq_bind, Option.bind_some, Option.pure_def]

end Selection

namespace Source

variable {key other text : String} {make : String → Option Value → Option Nat → Source}
  {filter : Option Value} {limit : Option Nat} {d : Document}

theorem flatFields?_constrained (hf : key ≠ "filter") (hl : key ≠ "limit")
    (h : d.Spells (.object ((key, .string text) :: constraintMembers filter limit)))
    (names : List String) : ∃ fields, d.flatFields? names = some fields
      ∧ FieldsSpell names fields ((key, .string text) :: constraintMembers filter limit) := by
  have hnodup : (((key, Json.string text) :: constraintMembers filter limit).map Prod.fst).Nodup :=
    List.Nodup.sublist ((keys_constraints_sublist filter limit).cons_cons key) (by simp [hf, hl])
  obtain ⟨members, rfl, hmembers⟩ := h.eq_object hnodup
  obtain ⟨fields, hknown, hfields⟩ := hmembers.known?_eq names
  refine ⟨fields, ?_, hfields⟩
  rw [flatFields?, readable, h.denotes, Option.isSome_some, if_pos rfl, hknown]

/-- A hop or a seed is read back under its own key. -/
theorem constrained?_eq (hf : key ≠ "filter") (hl : key ≠ "limit") (hw : Writable filter)
    (h : d.Spells (.object ((key, .string text) :: constraintMembers filter limit))) :
    constrained? key make d = some (make text filter limit) := by
  obtain ⟨fields, hflat, hfields⟩ := flatFields?_constrained hf hl h [key, "filter", "limit"]
  have htext : required? key string? fields = some text :=
    hfields.required?_eq (by simp) (if_pos rfl) (fun d hd => by rw [hd.eq_string]; rfl)
  have hfilter := hfields.filter?_eq (by simp)
    ((if_neg hf).trans (get?_filter_constraints filter limit)) hw
  have hlimit := hfields.limit?_eq (by simp)
    ((if_neg hl).trans (get?_limit_constraints filter limit))
  simp only [constrained?, hflat, htext, hfilter, hlimit, Option.bind_eq_bind, Option.bind_some,
    Option.pure_def]

/-- It is not read under the other key. -/
theorem constrained?_eq_none (hf : key ≠ "filter") (hl : key ≠ "limit") (ho : other ≠ key)
    (hof : other ≠ "filter") (hol : other ≠ "limit")
    (h : d.Spells (.object ((key, .string text) :: constraintMembers filter limit))) :
    constrained? other make d = none := by
  obtain ⟨fields, hflat, hfields⟩ := flatFields?_constrained hf hl h [other, "filter", "limit"]
  have htext : required? other string? fields = none :=
    hfields.required?_eq_none (by simp)
      ((if_neg ho.symm).trans (get?_constraints hof hol filter limit))
  simp only [constrained?, hflat, htext, Option.bind_eq_bind, Option.bind_some, Option.bind_none]

/-- Whatever spells a canonical source is read as the source. -/
theorem Canonical.ofDocument?_eq {source : Source} (h : source.Canonical)
    (hd : d.Spells source.toJson) : ofDocument? d = some source := by
  cases h with
  | name text =>
    rw [hd.eq_string]
    rfl
  | hop what hw limit =>
    have htext : d.string? = none := by
      obtain ⟨members, found, rfl, -⟩ := eq_object_of_json? hd.denotes
      rfl
    rw [ofDocument?, htext, constrained?_eq (by decide) (by decide) hw hd]
    rfl
  | seed type hw limit =>
    have htext : d.string? = none := by
      obtain ⟨members, found, rfl, -⟩ := eq_object_of_json? hd.denotes
      rfl
    rw [ofDocument?, htext, constrained?_eq (by decide) (by decide) hw hd,
      constrained?_eq_none (by decide) (by decide) (by decide) (by decide) (by decide) hd]
    rfl

end Source

section Inherits

variable {P : Json → Prop}

theorem forall_constraintMembers {filter : Option Value} {limit : Option Nat}
    (hfilter : ∀ f, filter = some f → P f.toJson)
    (hlimit : ∀ n : Nat, limit = some n → P (.integer n)) :
    ∀ m ∈ constraintMembers filter limit, P m.2 := by
  cases filter <;> cases limit <;> simp_all [constraintMembers]

theorem Selection.forall_members {names : List String} {connections : List (String × Json)}
    (hnames : P (.array (names.map .string))) (hconnections : P (.object connections)) :
    ∀ m ∈ members names connections, P m.2 := by
  unfold members
  split
  · exact List.forall_mem_singleton.mpr hnames
  · exact List.forall_mem_cons.mpr ⟨hnames, List.forall_mem_singleton.mpr hconnections⟩

theorem inherits_constraintMembers (hP : Json.Inherited P) {filter : Option Value}
    (hw : Writable filter) (limit : Option Nat) :
    ∀ m ∈ constraintMembers filter limit, P m.2 :=
  forall_constraintMembers (fun f hf => (hw f hf).1.inherits hP) (fun n _ => hP.integer n)

theorem Selection.inherits_members (hP : Json.Inherited P) {s : Selection Value}
    (ha : SortedEntries.Ascending s.branches) (h : ∀ b ∈ s.branches, P b.2.toJson) :
    ∀ m ∈ members s.propertyNames s.connectionMembers, P m.2 := by
  refine forall_members (hP.array (List.forall_mem_map.mpr (fun name _ => hP.string name))) ?_
  rw [connectionMembers_eq]
  refine hP.object (by rw [Entries.keys_mapValues]; exact ha.nodup) (fun m hm => ?_)
  obtain ⟨b, hb, rfl⟩ := Entries.mem_mapValues.mp hm
  exact h b hb

theorem Selection.Canonical.inherits_branches (hP : Json.Inherited P) {s : Selection Value}
    (h : s.Canonical) : ∀ b ∈ s.branches, P b.2.toJson := by
  induction h with
  | mk ascending written inner ih =>
    intro b hb
    refine hP.object (nodup_keys_branch b.2) (fun m hm => ?_)
    rcases List.mem_append.mp hm with hm | hm
    · exact inherits_members hP (inner b hb).ascending (ih b hb) m hm
    · exact inherits_constraintMembers hP (written b hb) b.2.limit m hm

theorem Source.Canonical.inherits (hP : Json.Inherited P) {source : Source}
    (h : source.Canonical) : P source.toJson := by
  have hobject : ∀ (key text : String) {filter : Option Value} (limit : Option Nat),
      [key, "filter", "limit"].Nodup → Writable filter →
      P (.object ((key, .string text) :: constraintMembers filter limit)) := by
    intro key text filter limit hkeys hw
    exact hP.object
      (List.Nodup.sublist ((keys_constraints_sublist filter limit).cons_cons key) hkeys)
      (List.forall_mem_cons.mpr ⟨hP.string text, inherits_constraintMembers hP hw limit⟩)
  cases h with
  | name text => exact hP.string text
  | hop what hw limit => exact hobject "what" what limit (by decide) hw
  | seed type hw limit => exact hobject "type" type limit (by decide) hw

namespace Query

theorem nodup_keys (q : Query) : (q.toMembers.map Prod.fst).Nodup := by
  show ["select", "from"].Nodup
  decide

theorem Canonical.inherits_members (hP : Json.Inherited P) {q : Query} (h : q.Canonical) :
    ∀ m ∈ q.toMembers, P m.2 := by
  have hselect : P q.select.toJson :=
    hP.object (List.Nodup.sublist (Selection.keys_members_sublist _ _) (by decide))
      (Selection.inherits_members hP h.select.ascending (h.select.inherits_branches hP))
  have hsources : P (.array (q.sources.map Source.toJson)) :=
    hP.array (List.forall_mem_map.mpr (fun source hs => (h.sources source hs).inherits hP))
  exact List.forall_mem_cons.mpr ⟨hselect, List.forall_mem_singleton.mpr hsources⟩

/-- A canonical query is written as a value with every property that parts pass on. -/
theorem Canonical.inherits (hP : Json.Inherited P) {q : Query} (h : q.Canonical) : P q.toJson :=
  hP.object q.nodup_keys (h.inherits_members hP)

theorem Canonical.finite {q : Query} (h : q.Canonical) : q.toJson.Finite :=
  h.inherits ⟨.null, .bool, .integer, .double, .string, .array, fun _ => .object⟩

end Query

end Inherits

namespace Query

/-- A canonical query is read from fields that spell its parts. -/
theorem Canonical.ofFields?_eq {q : Query} (h : q.Canonical) {names : List String}
    {fields : List (String × Document)} {given : List (String × Json)}
    (hf : FieldsSpell names fields given) (hs : "select" ∈ names) (hn : "from" ∈ names)
    (hselect : Entries.get? "select" given = some q.select.toJson)
    (hfrom : Entries.get? "from" given = some (.array (q.sources.map Source.toJson))) :
    ofFields? fields = some q := by
  have hread : required? "select" Selection.ofDocument? fields = some q.select :=
    hf.required?_eq hs hselect (fun _ => h.select.ofDocument?_eq)
  have hsources : required? "from" (list? Source.ofDocument?) fields = some q.sources :=
    hf.required?_eq hn hfrom
      (fun _ hd => list?_eq hd (fun a ha _ => (h.sources a ha).ofDocument?_eq))
  simp only [ofFields?, hread, hsources, Option.bind_eq_bind, Option.bind_some, Option.pure_def]

/-- Whatever spells a canonical query is read as the query. -/
theorem Canonical.ofDocument?_eq {q : Query} (h : q.Canonical) {d : Document}
    (hd : d.Spells q.toJson) : ofDocument? d = some q := by
  obtain ⟨members, rfl, hmembers⟩ := hd.eq_object q.nodup_keys
  obtain ⟨fields, hknown, hfields⟩ := hmembers.known?_eq ["select", "from"]
  rw [ofDocument?, fields?, hknown]
  exact h.ofFields?_eq hfields (by decide) (by decide) rfl rfl

end Query

end PropertyGraph
