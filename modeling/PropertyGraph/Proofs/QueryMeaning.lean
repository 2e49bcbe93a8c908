import PropertyGraph.Proofs.Paths
import PropertyGraph.Proofs.QueryMask
import PropertyGraph.Proofs.Token
import PropertyGraph.Proofs.TypeIndex

namespace PropertyGraph

/-- Whether a vertex meets an optional filter. One that cannot be read is met by no vertex. -/
def Vertex.meets (filter : Option Value) (v : Vertex) : Bool :=
  filter.all (fun value => match Filter.compile value with
    | .ok f => f.accepts v
    | .error _ => false)

/-- The vertices that meet a filter, up to a limit. -/
def chosen (filter : Option Value) (limit : Option Nat) (vertices : List Vertex) : List Vertex :=
  Selection.cut limit (vertices.filter (Vertex.meets filter))

namespace Store

/-- The vertices that the edges of a type lead from, in the order of the edges. -/
def predecessors (s : Store) (type : String) (id : VertexId) : List Vertex :=
  ((s.inEdges id).filter (fun e => e.type = type)).filterMap (fun e => s.vertex? e.origin)

def successors (s : Store) (type : String) (id : VertexId) : List Vertex :=
  ((s.outEdges id).filter (fun e => e.type = type)).filterMap (fun e => s.vertex? e.target)

end Store

namespace Source

/-- What is before a frontier on the way: the predecessors of its members, each once. -/
def before (s : Store) (frontier : List VertexId) : Source → List VertexId
  | name type =>
    (frontier.flatMap (fun id => (s.predecessors type id).map Vertex.id)).eraseDups
  | hop type filter limit =>
    (frontier.flatMap
      (fun id => (chosen filter limit (s.predecessors type id)).map Vertex.id)).eraseDups
  | seed _ _ _ => []

/-- The vertices that a source stands for in the last place. -/
def seeds (s : Store) : Source → List VertexId
  | name id => [id]
  | hop _ _ _ => []
  | seed type filter limit =>
    (chosen filter limit (s.vertices.values.filter (fun v => v.type = type))).map Vertex.id

end Source

/-- The vertices that sources lead to, from the last of them to the first. -/
def reachedBy (s : Store) : List Source → List VertexId
  | [] => []
  | [last] => last.seeds s
  | source :: rest => source.before s (reachedBy s rest)

/-- The entries are a row that holds under each key what it should, and has no other keys. -/
def IsRow (holds : String → Value → Prop) (entries : Properties) : Prop :=
  SortedEntries.Ascending entries ∧ ∀ key x, Entries.get? key entries = some x ↔ holds key x

/-- What a selection puts under a key of the row of a vertex. Under the name of a connection stand
the rows of the vertices that it leads to, also when a property has that name. -/
def Selection.Puts (s : Store) : Selection Value → Vertex → String → Value → Prop
  | properties names, v, key, x => key ∈ names ∧ x = (v.get? key).getD .null
  | connect name inner filter limit rest, v, key, x =>
    if key = name then
      ∃ rows : List Properties, x = .list (rows.map .map) ∧
        List.Forall₂ (fun t row => IsRow (inner.Puts s t) row)
          (chosen filter limit (s.successors name v.id)) rows
    else rest.Puts s v key x

/-- The rows that a query asks for: one for each vertex that its sources lead to. -/
def Query.Means (s : Store) (q : Query) (rows : List Row) : Prop :=
  List.Forall₂ (fun id row => ∃ v, s.vertex? id = some v ∧ IsRow (q.select.Puts s v) row.values)
    (reachedBy s q.sources) rows

section Filters

variable {filter : Option Value} {f : Option Filter}

theorem all_accepts_eq_meets (h : filter.mapM Filter.compile = .ok f) (v : Vertex) :
    f.all (fun g => g.accepts v) = v.meets filter := by
  cases filter with
  | none =>
    cases h
    rfl
  | some value =>
    obtain ⟨g, hg, h⟩ := bind_eq_ok_iff.mp h
    cases h
    simp only [Vertex.meets, Option.all_some, hg]

theorem meets_none : Vertex.meets none = fun _ => true := rfl

theorem chosen_none (vertices : List Vertex) : chosen none none vertices = vertices := by
  rw [chosen, meets_none, List.filter_true, Selection.cut]

theorem mem_of_mem_chosen {limit : Option Nat} {vertices : List Vertex} {v : Vertex}
    (h : v ∈ chosen filter limit vertices) : v ∈ vertices := by
  have hcut : chosen filter limit vertices ⊆ vertices.filter (Vertex.meets filter) := by
    unfold chosen Selection.cut
    split
    · exact List.Subset.refl _
    · exact List.Subset.refl _
    · exact List.take_subset _ _
  exact List.mem_of_mem_filter (hcut h)

end Filters

namespace Traversal

theorem fresh_eq_eraseDups (kept ids : List VertexId) :
    Seq.fresh (fun a b => decide (a = b)) kept ids =
      (ids.filter (fun id => decide (id ∉ kept))).eraseDups := by
  induction ids generalizing kept with
  | nil => rfl
  | cons id ids ih =>
    rw [Seq.fresh]
    by_cases hm : id ∈ kept
    · have hany : kept.any (fun b => decide (id = b)) = true := by simpa using hm
      rw [if_pos hany, ih, List.filter_cons_of_neg (by simpa using hm)]
    · have hany : ¬ kept.any (fun b => decide (id = b)) = true := by simpa using hm
      rw [if_neg hany, ih, List.filter_cons_of_pos (by simpa using hm), List.eraseDups_cons,
        List.filter_filter]
      have hsame : ∀ x ∈ ids, decide (x ∉ id :: kept) = (!x == id && decide (x ∉ kept)) := by
        intro x _
        rw [Bool.eq_iff_iff]
        simp [not_or]
      rw [List.filter_congr hsame]

theorem firstOccurrences_eq_eraseDups (ids : List VertexId) :
    firstOccurrences ids = ids.eraseDups := by
  rw [← fresh_eq_firstOccurrences, fresh_eq_eraseDups]
  simp

theorem hops_constrain_via (t : Traversal) (type : String) (filter : Option (Vertex → Bool))
    (limit : Option Nat) : ((t.via type).constrain filter limit).hops =
      t.hops ++ [⟨type, filter, limit.filter (fun n => 0 < n)⟩] := by
  simp only [via, constrain, List.getLast?_concat, List.dropLast_concat]

end Traversal

section Sources

variable {s : Store}

theorem cut_filter_pos {α : Type} (h : Hop) (limit : Option Nat)
    (hl : h.limit = limit.filter (fun n => 0 < n)) (items : List α) :
    h.cut items = Selection.cut limit items := by
  unfold Hop.cut Selection.cut
  rw [hl]
  cases limit with
  | none => rfl
  | some n => cases n <;> rfl

/-- Before its limit cuts, a hop arrives at the predecessors that pass its filter. -/
theorem arrivals_eq (s : Store) (h : Hop) (id : VertexId) :
    (h.origins s id).filterMap (h.arrival? s) =
      ((s.predecessors h.name id).filter h.passes).map Vertex.id := by
  rw [Hop.origins, Store.predecessors, List.filterMap_map, List.filter_filterMap,
    List.map_filterMap]
  refine List.filterMap_congr (fun e _ => ?_)
  rw [Function.comp_apply, Hop.arrival?]
  cases s.vertex? e.origin with
  | none => rfl
  | some v =>
    rw [Option.bind_some, Option.filter_some]
    cases h.passes v <;> rfl

theorem reach_eq_chosen (h : Hop) (filter : Option Value) (limit : Option Nat)
    (hl : h.limit = limit.filter (fun n => 0 < n)) (hf : ∀ v, h.passes v = v.meets filter)
    (id : VertexId) :
    h.reach s id = (chosen filter limit (s.predecessors h.name id)).map Vertex.id := by
  have hpasses : h.passes = Vertex.meets filter := funext hf
  rw [Hop.reach, arrivals_eq, cut_filter_pos h limit hl, hpasses, chosen, Selection.map_cut]

/-- One more source is one more stage of the traversal. -/
theorem addHop_spec {t t' : Traversal} {source : Source} (h : Query.addHop t source = .ok t') :
    ∃ hop : Hop, t'.hops = t.hops ++ [hop] ∧ ∀ frontier,
      Traversal.firstOccurrences (frontier.flatMap (hop.reach s)) = source.before s frontier := by
  cases source with
  | name type =>
    cases h
    refine ⟨⟨type, none, none⟩, rfl, fun frontier => ?_⟩
    have hreach : (Hop.mk type none none).reach s =
        fun id => (s.predecessors type id).map Vertex.id := by
      funext id
      rw [reach_eq_chosen ⟨type, none, none⟩ none none rfl (fun _ => rfl), chosen_none]
    rw [Traversal.firstOccurrences_eq_eraseDups, Source.before, hreach]
  | hop type filter limit =>
    obtain ⟨f, hf, h⟩ := bind_eq_ok_iff.mp h
    cases h
    have hpasses : ∀ v : Vertex, Hop.passes ⟨type, f.map (fun f v => f.accepts v),
        limit.filter (fun n => 0 < n)⟩ v = v.meets filter := by
      intro v
      rw [Hop.passes, Option.all_map]
      exact all_accepts_eq_meets hf v
    refine ⟨_, Traversal.hops_constrain_via t type _ limit, fun frontier => ?_⟩
    have hreach := reach_eq_chosen (s := s) _ filter limit rfl hpasses
    rw [Traversal.firstOccurrences_eq_eraseDups, Source.before, funext hreach]
  | seed type filter limit => cases h

theorem foldlM_addHop_spec {t t' : Traversal} {sources : List Source}
    (h : sources.foldlM Query.addHop t = .ok t') :
    ∃ hops : List Hop, t'.hops = t.hops ++ hops ∧ ∀ seeds,
      hops.foldr (fun hop frontier =>
        Traversal.firstOccurrences (frontier.flatMap (hop.reach s))) seeds =
      sources.foldr (fun source frontier => source.before s frontier) seeds := by
  induction sources generalizing t with
  | nil =>
    cases h
    exact ⟨[], (List.append_nil _).symm, fun _ => rfl⟩
  | cons source sources ih =>
    rw [List.foldlM_cons] at h
    obtain ⟨next, hnext, h⟩ := bind_eq_ok_iff.mp h
    obtain ⟨hop, hhop, hbefore⟩ := addHop_spec hnext
    obtain ⟨hops, hhops, hrest⟩ := ih h
    refine ⟨hop :: hops, by rw [hhops, hhop, List.append_assoc, List.singleton_append], ?_⟩
    intro seeds
    rw [List.foldr_cons, List.foldr_cons, hrest, hbefore]

theorem reachedBy_concat (s : Store) (sources : List Source) (last : Source) :
    reachedBy s (sources ++ [last]) =
      sources.foldr (fun source frontier => source.before s frontier) (last.seeds s) := by
  induction sources with
  | nil => rfl
  | cons source sources ih =>
    cases sources with
    | nil => rfl
    | cons next rest =>
      rw [List.foldr_cons, ← ih]
      rfl

/-- The seeds that the engine finds are those that the last source stands for. -/
theorem seeds_spec (hw : s.WellFormed) (hi : s.Indexed) {registered : String → Bool}
    {last : Source} {start : List VertexId} (h : Query.seeds s registered last = .ok start) :
    start = last.seeds s ∧ ∀ id ∈ start, id ∈ s.vertices.keys := by
  have hvalues : ∀ v ∈ s.vertices.values, s.vertex? v.id = some v := by
    intro v hv
    obtain ⟨e, he, rfl⟩ := List.mem_map.mp hv
    have hfind : s.vertex? e.1 = some e.2 := OrderedMap.mem_entries_iff.mp he
    rwa [hw.own_id _ _ hfind]
  cases last with
  | name id =>
    rw [Query.seeds] at h
    split at h
    · next hid =>
      cases h
      exact ⟨rfl, by simpa using Store.hasVertex_iff.mp hid⟩
    · cases h
  | hop name filter limit => cases h
  | seed type filter limit =>
    rw [Query.seeds] at h
    split at h
    · cases h
    · obtain ⟨f, hf, h⟩ := bind_eq_ok_iff.mp h
      cases h
      have hinstances : Query.instances s type f =
          ((s.vertices.values.filter (fun v => v.type = type)).filter
            (Vertex.meets filter)).map Vertex.id := by
        rw [Query.instances, hi.filterMap_idsOf, List.filter_map]
        refine congrArg (List.map Vertex.id) (List.filter_congr (fun v hv => ?_))
        rw [Function.comp_apply, hvalues v (List.mem_of_mem_filter hv)]
        simpa using all_accepts_eq_meets (Query.orFault_eq_ok hf) v
      rw [hinstances, ← Selection.map_cut]
      refine ⟨rfl, fun id hid => ?_⟩
      obtain ⟨v, hv, rfl⟩ := List.mem_map.mp hid
      exact Store.mem_keys_of_vertex?
        (hvalues v (List.mem_of_mem_filter (mem_of_mem_chosen hv)))

theorem mem_keys_of_mem_before (hw : s.WellFormed) {frontier : List VertexId} {source : Source}
    {id : VertexId} (h : id ∈ source.before s frontier) : id ∈ s.vertices.keys := by
  have hpredecessor : ∀ type next, ∀ v ∈ s.predecessors type next, v.id ∈ s.vertices.keys := by
    intro type next v hv
    obtain ⟨e, _, he⟩ := List.mem_filterMap.mp hv
    rw [hw.own_id _ _ he]
    exact Store.mem_keys_of_vertex? he
  cases source with
  | name type =>
    obtain ⟨next, _, hm⟩ := List.mem_flatMap.mp (List.mem_eraseDups.mp h)
    obtain ⟨v, hv, rfl⟩ := List.mem_map.mp hm
    exact hpredecessor type next v hv
  | hop type filter limit =>
    obtain ⟨next, _, hm⟩ := List.mem_flatMap.mp (List.mem_eraseDups.mp h)
    obtain ⟨v, hv, rfl⟩ := List.mem_map.mp hm
    exact hpredecessor type next v (mem_of_mem_chosen hv)
  | seed type filter limit => cases h

end Sources

section Rows

variable {s : Store}

theorem IsRow.unique {holds : String → Value → Prop} {entries others : Properties}
    (h : IsRow holds entries) (h' : IsRow holds others) : entries = others := by
  refine h.1.ext h'.1 (fun key => ?_)
  rw [Option.ext_iff]
  intro x
  rw [h.2, h'.2]

/-- What is projected is the row that the selection describes. -/
theorem isRow_project {selection : Selection Value} {compiled : Selection Filter}
    (h : selection.compile = .ok compiled) (v : Vertex) :
    IsRow (selection.Puts s v) (compiled.project s v) := by
  induction selection generalizing compiled v with
  | properties names =>
    cases h
    refine ⟨SortedEntries.ascending_ofList _, fun key x => ?_⟩
    rw [Selection.project,
      SortedEntries.get?_ofList_map names (fun p => (v.get? p).getD .null),
      Selection.Puts, Option.ite_none_right_eq_some, Option.some.injEq, eq_comm]
  | connect name inner filter limit rest ihInner ihRest =>
    obtain ⟨inner', hinner, h⟩ := bind_eq_ok_iff.mp h
    obtain ⟨f, hf, h⟩ := bind_eq_ok_iff.mp h
    obtain ⟨rest', hrest, h⟩ := bind_eq_ok_iff.mp h
    cases h
    have hends : Selection.neighbours s name f limit v =
        chosen filter limit (s.successors name v.id) := by
      rw [Selection.neighbours, chosen, Store.successors, List.filterMap_map]
      simp only [Function.comp_def, all_accepts_eq_meets hf]
    have hrows : List.Forall₂ (fun t row => IsRow (inner.Puts s t) row)
        (chosen filter limit (s.successors name v.id))
        ((chosen filter limit (s.successors name v.id)).map (inner'.project s)) := by
      rw [List.forall₂_map_right_iff, List.forall₂_same]
      exact fun t _ => ihInner hinner t
    obtain ⟨hascending, hlook⟩ := ihRest hrest v
    refine ⟨hascending.insert _ _, fun key x => ?_⟩
    rw [Selection.project, hends, Selection.Puts]
    by_cases hk : key = name
    · rw [hk, SortedEntries.get?_insert_self, if_pos rfl, Option.some.injEq]
      constructor
      · rintro rfl
        exact ⟨_, by rw [List.map_map]; rfl, hrows⟩
      · rintro ⟨rows, rfl, hothers⟩
        rw [List.right_unique_forall₂' (fun _ _ _ h h' => h.unique h') hothers hrows,
          List.map_map]
        rfl
    · rw [SortedEntries.get?_insert_of_ne hk, if_neg hk]
      exact hlook key x

theorem Query.Means.unique {q : Query} {rows others : List Row} (h : q.Means s rows)
    (h' : q.Means s others) : rows = others := by
  refine List.right_unique_forall₂' ?_ h h'
  rintro id ⟨row⟩ ⟨other⟩ ⟨v, hv, hrow⟩ ⟨w, hw, hother⟩
  obtain rfl := Option.some.inj (hv.symm.trans hw)
  obtain rfl : row = other := hrow.unique hother
  rfl

/-- What the engine answers is what the query means. -/
theorem Query.means_of_run (hw : s.WellFormed) (hi : s.Indexed) {registered : String → Bool}
    {q : Query} {rows : List Row} (h : q.run s registered = .ok rows) : q.Means s rows := by
  unfold Query.run at h
  split at h
  · cases h
  · next last hlast =>
    obtain ⟨sources, hsources⟩ := List.getLast?_eq_some_iff.mp hlast
    obtain ⟨compiled, hcompiled, h⟩ := bind_eq_ok_iff.mp h
    obtain ⟨t, ht, h⟩ := bind_eq_ok_iff.mp h
    obtain ⟨start, hstart, h⟩ := bind_eq_ok_iff.mp h
    cases h
    have ht := Query.orFault_eq_ok ht
    rw [hsources, List.dropLast_concat] at ht
    obtain ⟨hops, hhops, hback⟩ := foldlM_addHop_spec (s := s) ht
    obtain ⟨rfl, hseeds⟩ := seeds_spec hw hi hstart
    have hreach : t.reach s (last.seeds s) = reachedBy s q.sources := by
      rw [hsources, reachedBy_concat, ← hback, Traversal.reach, hhops]
      rfl
    -- The engine passes over ids without a vertex; here there are none.
    have hvertices : ∀ id ∈ reachedBy s q.sources, id ∈ s.vertices.keys := by
      rw [hsources, reachedBy_concat]
      cases sources with
      | nil => exact hseeds
      | cons source sources => exact fun id hid => mem_keys_of_mem_before hw hid
    rw [Query.Means, hreach]
    generalize reachedBy s q.sources = ids at hvertices
    induction ids with
    | nil => exact .nil
    | cons id ids ih =>
      obtain ⟨hid, hids⟩ := List.forall_mem_cons.mp hvertices
      obtain ⟨v, hv⟩ := s.vertices.mem_keys_iff.mp hid
      have hv : s.vertex? id = some v := hv
      rw [List.filterMap_cons_some hv, List.map_cons]
      exact .cons ⟨v, hv, isRow_project (Query.orFault_eq_ok hcompiled) v⟩ (ih hids)

/-- The rows of a genuine query that is accepted, over a store that grew without giving a present
vertex another type, are those that the query means, and no others. -/
theorem SignedQuery.rows_are_meant (secret : List UInt8) (registered : String → Bool)
    {calls : List Call} (hk : Store.empty.keepsTypes calls = true) {q : SignedQuery}
    {rows : List Row} (h : q.run secret (Store.empty.run calls) registered = .ok rows) :
    ∀ others, q.query.Means (Store.empty.run calls) others ↔ others = rows := by
  obtain ⟨_, _, h⟩ := bind_eq_ok_iff.mp h
  have hmeans : q.query.Means (Store.empty.run calls) rows :=
    Query.means_of_run (Store.wellFormed_empty.run calls)
      (Store.indexed_empty.run Store.wellFormed_empty hk) h
  intro others
  constructor
  · exact fun hothers => hothers.unique hmeans
  · rintro rfl
    exact hmeans

/-- Of those who like "b" and are over one, no more than one counts; what stands under "likes" are
the rows of whom she likes, though it is asked for as a property as well. -/
theorem likers_of_b_are_meant :
    let calls : List Call := [.perform (.setVertex "a" "Person" [("age", .int 1)]),
      .perform (.setVertex "b" "Robot" [("age", .int 2)]),
      .perform (.setVertex "c" "Person" [("age", .int 3)]),
      .perform (.setVertex "d" "Person" [("age", .int 4)]),
      .perform (.setEdge ⟨"a", "b", "likes"⟩), .perform (.setEdge ⟨"c", "b", "likes"⟩),
      .perform (.setEdge ⟨"c", "c", "likes"⟩), .perform (.setEdge ⟨"d", "b", "likes"⟩)]
    let q : Query := ⟨.connect "likes" (.properties ["age"]) none (some 0)
        (.properties ["likes", "mood"]),
      [.hop "likes" (some (.map [("$more", .map [("age", .int 1)])])) (some 1),
        .seed "Robot" none none]⟩
    Store.empty.keepsTypes calls = true ∧
      ∀ rows, q.Means (Store.empty.run calls) rows ↔
        rows = [⟨[("likes", .list [.map [("age", .int 2)], .map [("age", .int 3)]]),
          ("mood", .null)]⟩] := by
  intro calls q
  have hk : Store.empty.keepsTypes calls = true := by decide
  have hrun : (q.sign [7]).run [7] (Store.empty.run calls) (fun _ => true) =
      .ok [⟨[("likes", .list [.map [("age", .int 2)], .map [("age", .int 3)]]),
        ("mood", .null)]⟩] := by
    rw [SignedQuery.run, Query.verify_sign]
    rfl
  exact ⟨hk, SignedQuery.rows_are_meant [7] (fun _ => true) hk hrun⟩

end Rows

end PropertyGraph
