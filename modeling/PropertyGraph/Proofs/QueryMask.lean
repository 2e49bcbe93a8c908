import PropertyGraph.Proofs.FilterMask
import PropertyGraph.Query.Engine
import PropertyGraph.Store.Run

namespace PropertyGraph

/-- The store with no other properties than those under the keys. -/
def Store.masked (keys : List String) (s : Store) : Store :=
  ⟨s.vertices.filterMap (fun _ v => some (v.masked keys)), s.outgoing, s.incoming, s.typeIndex⟩

/-- The names in an optional filter. -/
def namedByFilter (filter : Option Value) : List String := (filter.map Filter.named).getD []

/-- The properties that a selection copies or tests, at any depth. -/
def Selection.named : Selection Value → List String
  | properties names => names
  | connect _ inner filter _ rest => inner.named ++ namedByFilter filter ++ rest.named

def Source.named : Source → List String
  | name _ => []
  | hop _ filter _ => namedByFilter filter
  | seed _ filter _ => namedByFilter filter

/-- The properties that a query names. -/
def Query.named (q : Query) : List String := q.select.named ++ q.sources.flatMap Source.named

namespace Store

variable {keys : List String} {s t : Store} {id : VertexId}

theorem vertex?_masked : (s.masked keys).vertex? id = (s.vertex? id).map (Vertex.masked keys) := by
  rw [vertex?, masked, OrderedMap.get?_filterMap]
  cases h : s.vertices.get? id <;> simp [vertex?, h]

theorem hasVertex_masked : (s.masked keys).hasVertex id = s.hasVertex id := by
  have h : (s.masked keys).vertices.get? id = (s.vertices.get? id).map (Vertex.masked keys) :=
    vertex?_masked
  rw [hasVertex, hasVertex, OrderedMap.contains, OrderedMap.contains, h, Option.isSome_map]

/-- The stores have the same vertices in the same order, by id and type, with the same edges and
buckets, and no vertex differs under one of the keys. -/
structure Agree (keys : List String) (s t : Store) : Prop where
  keys_eq : s.vertices.keys = t.vertices.keys
  outgoing : s.outgoing = t.outgoing
  incoming : s.incoming = t.incoming
  typeIndex : s.typeIndex = t.typeIndex
  identity : ∀ id v w, s.vertex? id = some v → t.vertex? id = some w →
    v.id = w.id ∧ v.type = w.type
  property : ∀ id, ∀ k ∈ keys, s.property? id k = t.property? id k

theorem keys_masked (keys : List String) (s : Store) :
    (s.masked keys).vertices.keys = s.vertices.keys := by
  simp [masked, OrderedMap.keys, OrderedMap.filterMap, Entries.filterMap]

/-- Stores that agree under the keys are masked alike. -/
theorem Agree.masked_eq (h : Agree keys s t) : s.masked keys = t.masked keys := by
  have hkeys : (s.masked keys).vertices.keys = (t.masked keys).vertices.keys := by
    rw [keys_masked, keys_masked, h.keys_eq]
  have hlook : ∀ id, (s.masked keys).vertex? id = (t.masked keys).vertex? id := by
    intro id
    rw [vertex?_masked, vertex?_masked]
    cases hv : s.vertex? id with
    | none =>
      have hid : id ∉ t.vertices.keys := by
        rw [← h.keys_eq]
        exact s.vertices.get?_eq_none_iff.mp hv
      have hnone : t.vertex? id = none := t.vertices.get?_eq_none_iff.mpr hid
      rw [hnone]
    | some v =>
      have hid : id ∈ t.vertices.keys := h.keys_eq ▸ OrderedMap.mem_keys_of_get? hv
      obtain ⟨w, hw⟩ := t.vertices.mem_keys_iff.mp hid
      have hw : t.vertex? id = some w := hw
      obtain ⟨hids, htypes⟩ := h.identity id v w hv hw
      rw [hw, Option.map_some, Option.map_some, Vertex.masked_congr hids htypes (fun k hk => ?_)]
      simpa [property?, hv, hw] using h.property id k hk
  have hvertices : (s.masked keys).vertices = (t.masked keys).vertices :=
    OrderedMap.ext_get? hkeys hlook
  calc s.masked keys
      = ⟨(s.masked keys).vertices, s.outgoing, s.incoming, s.typeIndex⟩ := rfl
    _ = ⟨(t.masked keys).vertices, t.outgoing, t.incoming, t.typeIndex⟩ := by
      rw [hvertices, h.outgoing, h.incoming, h.typeIndex]

end Store

section Reading

variable {keys : List String} {s : Store}

/-- An optional filter that was read reads only what it names. -/
theorem reads_of_mapM_compile {filter : Option Value} {f : Option Filter}
    (h : filter.mapM Filter.compile = .ok f) (hn : namedByFilter filter ⊆ keys) :
    ∀ g ∈ f, Filter.Reads keys g := by
  cases filter with
  | none =>
    cases h
    simp
  | some v =>
    obtain ⟨g, hg, h⟩ := bind_eq_ok_iff.mp h
    cases h
    rintro _ ⟨⟩
    exact Filter.reads_of_compile hg hn

theorem all_accepts_masked {filter : Option Filter} (h : ∀ g ∈ filter, Filter.Reads keys g)
    (v : Vertex) : filter.all (fun f => f.accepts (v.masked keys)) =
      filter.all (fun f => f.accepts v) := by
  cases filter with
  | none => rfl
  | some g => exact h g rfl v

namespace Selection

/-- The selection reads no properties but those under the keys. -/
def Reads (keys : List String) : Selection Filter → Prop
  | properties names => names ⊆ keys
  | connect _ inner filter _ rest =>
    inner.Reads keys ∧ (∀ g ∈ filter, Filter.Reads keys g) ∧ rest.Reads keys

theorem reads_of_compile {selection : Selection Value} {compiled : Selection Filter}
    (h : selection.compile = .ok compiled) (hn : selection.named ⊆ keys) :
    compiled.Reads keys := by
  induction selection generalizing compiled with
  | properties names =>
    cases h
    exact hn
  | connect name inner filter limit rest ihInner ihRest =>
    rw [compile] at h
    obtain ⟨inner', hi, h⟩ := bind_eq_ok_iff.mp h
    obtain ⟨filter', hf, h⟩ := bind_eq_ok_iff.mp h
    obtain ⟨rest', hr, h⟩ := bind_eq_ok_iff.mp h
    cases h
    rw [named, List.append_subset, List.append_subset] at hn
    exact ⟨ihInner hi hn.1.1, reads_of_mapM_compile hf hn.1.2, ihRest hr hn.2⟩

theorem map_cut {α β : Type} (f : α → β) (limit : Option Nat) (items : List α) :
    (cut limit items).map f = cut limit (items.map f) := by
  unfold cut
  split <;> simp

theorem neighbours_masked (name : String) {filter : Option Filter}
    (h : ∀ g ∈ filter, Filter.Reads keys g) (limit : Option Nat) (v : Vertex) :
    neighbours (s.masked keys) name filter limit (v.masked keys) =
      (neighbours s name filter limit v).map (Vertex.masked keys) := by
  have hfind : (s.masked keys).vertex? = fun id => (s.vertex? id).map (Vertex.masked keys) :=
    funext (fun _ => Store.vertex?_masked)
  have hends : (s.masked keys).outEdges (v.masked keys).id = s.outEdges v.id := rfl
  unfold neighbours
  dsimp only
  rw [map_cut, hends, hfind, ← List.map_filterMap, List.filter_map, Function.comp_def]
  simp only [all_accepts_masked h]

theorem project_masked {selection : Selection Filter} (h : selection.Reads keys) (v : Vertex) :
    selection.project (s.masked keys) (v.masked keys) = selection.project s v := by
  induction selection generalizing v with
  | properties names =>
    have hvalues : names.map (fun p => (p, ((v.masked keys).get? p).getD .null)) =
        names.map (fun p => (p, (v.get? p).getD .null)) :=
      List.map_congr_left (fun p hp => by rw [Vertex.get?_masked (h hp)])
    rw [project, project, hvalues]
  | connect name inner filter limit rest ihInner ihRest =>
    obtain ⟨hinner, hfilter, hrest⟩ := h
    have hrows : (fun t => Value.map (inner.project (s.masked keys) t)) ∘ Vertex.masked keys =
        fun t => Value.map (inner.project s t) :=
      funext (fun t => congrArg Value.map (ihInner hinner t))
    rw [project, project, neighbours_masked name hfilter, List.map_map, hrows, ihRest hrest]

end Selection

namespace Traversal

/-- The filters of the hops read no properties but those under the keys. -/
def Reads (keys : List String) (t : Traversal) : Prop :=
  ∀ h ∈ t.hops, ∀ v : Vertex, h.passes (v.masked keys) = h.passes v

theorem Reads.constrain_via {t : Traversal} (ht : t.Reads keys) (name : String)
    {filter : Option Filter} (hf : ∀ g ∈ filter, Filter.Reads keys g) (limit : Option Nat) :
    ((t.via name).constrain (filter.map (fun f v => f.accepts v)) limit).Reads keys := by
  intro h hm v
  simp only [via, constrain, List.getLast?_concat, List.dropLast_concat, List.mem_append,
    List.mem_singleton] at hm
  rcases hm with hm | rfl
  · exact ht h hm v
  · simpa only [Hop.passes, Option.all_map] using all_accepts_masked hf v

theorem Reads.via {t : Traversal} (ht : t.Reads keys) (name : String) :
    (t.via name).Reads keys := by
  intro h hm v
  rcases List.mem_append.mp hm with hm | hm
  · exact ht h hm v
  · obtain rfl := List.mem_singleton.mp hm
    rfl

theorem reads_of_addHop {t t' : Traversal} {source : Source} (ht : t.Reads keys)
    (h : Query.addHop t source = .ok t') (hn : source.named ⊆ keys) : t'.Reads keys := by
  cases source with
  | name text =>
    cases h
    exact ht.via text
  | hop name filter limit =>
    obtain ⟨f, hf, h⟩ := bind_eq_ok_iff.mp h
    cases h
    exact ht.constrain_via name (reads_of_mapM_compile hf hn) limit
  | seed type filter limit => cases h

theorem reads_of_traversal {t t' : Traversal} {hops : List Source} (ht : t.Reads keys)
    (h : hops.foldlM Query.addHop t = .ok t') (hn : ∀ source ∈ hops, source.named ⊆ keys) :
    t'.Reads keys := by
  induction hops generalizing t with
  | nil =>
    cases h
    exact ht
  | cons source hops ih =>
    rw [List.foldlM_cons] at h
    obtain ⟨next, hnext, h⟩ := bind_eq_ok_iff.mp h
    exact ih (reads_of_addHop ht hnext (hn source List.mem_cons_self)) h
      (fun source hm => hn source (List.mem_cons_of_mem _ hm))

theorem hop_reach_masked {h : Hop} (hp : ∀ v : Vertex, h.passes (v.masked keys) = h.passes v)
    (id : VertexId) : h.reach (s.masked keys) id = h.reach s id := by
  have harrival : h.arrival? (s.masked keys) = h.arrival? s := by
    funext origin
    rw [Hop.arrival?, Hop.arrival?, Store.vertex?_masked, Option.bind_map]
    simp only [Function.comp_def, hp]
    rfl
  have horigins : h.origins (s.masked keys) id = h.origins s id := rfl
  rw [Hop.reach, Hop.reach, harrival, horigins]

theorem reach_masked {t : Traversal} (ht : t.Reads keys) (start : List VertexId) :
    t.reach (s.masked keys) start = t.reach s start := by
  obtain ⟨hops⟩ := t
  unfold reach
  dsimp only
  induction hops with
  | nil => rfl
  | cons h hops ih =>
    have hhop : h.reach (s.masked keys) = h.reach s :=
      funext (hop_reach_masked (ht h List.mem_cons_self))
    rw [List.foldr_cons, List.foldr_cons, hhop,
      ih (fun h hm => ht h (List.mem_cons_of_mem _ hm))]

end Traversal

namespace Query

theorem instances_masked (type : String) {filter : Option Filter}
    (h : ∀ g ∈ filter, Filter.Reads keys g) :
    instances (s.masked keys) type filter = instances s type filter := by
  have hfind : (s.masked keys).vertex? = fun id => (s.vertex? id).map (Vertex.masked keys) :=
    funext (fun _ => Store.vertex?_masked)
  have hids : (s.masked keys).idsOf (some type) = s.idsOf (some type) := rfl
  unfold instances
  dsimp only
  rw [hids, hfind, ← List.map_filterMap, List.map_map]
  refine List.filter_congr (fun id _ => ?_)
  cases filter with
  | none => rfl
  | some g =>
    simp only [Option.all_some, Option.any_map, h g rfl _]

theorem orFault_eq_ok {α : Type} {x : Except QueryFault α} {a : α} (h : orFault x = .ok a) :
    x = .ok a := by
  cases x with
  | error fault => cases h
  | ok b =>
    cases h
    rfl

theorem seeds_masked (registered : String → Bool) {source : Source} (hn : source.named ⊆ keys) :
    seeds (s.masked keys) registered source = seeds s registered source := by
  cases source with
  | name id => rw [seeds, seeds, Store.hasVertex_masked]
  | hop name filter limit => rfl
  | seed type filter limit =>
    rw [seeds, seeds]
    refine ite_congr rfl (fun _ => rfl) (fun _ => bind_congr_ok (fun f hf => ?_))
    rw [instances_masked type (reads_of_mapM_compile (orFault_eq_ok hf) hn)]

/-- The rows of a query for the vertices that it reaches. -/
theorem rows_masked {selection : Selection Filter} (hs : selection.Reads keys) {t : Traversal}
    (ht : t.Reads keys) (start : List VertexId) :
    ((t.reach (s.masked keys) start).filterMap (s.masked keys).vertex?).map
        (fun v => Row.mk (selection.project (s.masked keys) v)) =
      ((t.reach s start).filterMap s.vertex?).map (fun v => ⟨selection.project s v⟩) := by
  have hfind : (s.masked keys).vertex? = fun id => (s.vertex? id).map (Vertex.masked keys) :=
    funext (fun _ => Store.vertex?_masked)
  rw [Traversal.reach_masked ht, hfind, ← List.map_filterMap, List.map_map]
  refine List.map_congr_left (fun v _ => ?_)
  rw [Function.comp_apply, Selection.project_masked hs]

/-- A query answers a masked store as it answers the store, if all it names is kept. -/
theorem run_masked (registered : String → Bool) {q : Query} (hn : q.named ⊆ keys) :
    q.run (s.masked keys) registered = q.run s registered := by
  rw [named, List.append_subset] at hn
  have hsource : ∀ source ∈ q.sources, source.named ⊆ keys := fun source hm _ hk =>
    hn.2 (List.mem_flatMap.mpr ⟨source, hm, hk⟩)
  unfold run
  cases hlast : q.sources.getLast? with
  | none => rfl
  | some last =>
    dsimp only
    refine bind_congr_ok (fun selection hc => bind_congr_ok (fun t ht => ?_))
    have hs : selection.Reads keys := Selection.reads_of_compile (orFault_eq_ok hc) hn.1
    have ht : t.Reads keys := Traversal.reads_of_traversal (fun _ h => by cases h)
      (orFault_eq_ok ht) (fun source hm => hsource source (List.dropLast_subset _ hm))
    rw [seeds_masked registered (hsource last (List.mem_of_getLast? hlast))]
    simp only [rows_masked hs ht]

/-- Properties that a signed query does not name have no influence on its answer. -/
theorem unnamed_properties_do_not_matter (secret : List UInt8) (registered : String → Bool)
    {s t : Store} {q : SignedQuery} (h : Store.Agree q.query.named s t) :
    q.run secret s registered = q.run secret t registered := by
  have hsame : q.query.run s registered = q.query.run t registered := by
    rw [← run_masked registered (List.Subset.refl _), h.masked_eq,
      run_masked registered (List.Subset.refl _)]
  rw [SignedQuery.run, SignedQuery.run, hsame]

/-- Nobody learns the mood of "a" from a query about ages. -/
theorem mood_does_not_show :
    let s (mood : String) : Store := Store.empty.run
      [.perform (.setVertex "a" "Person" [("age", .int 3), ("mood", .string mood)]),
        .perform (.setEdge ⟨"a", "a", "knows"⟩)]
    let q : Query := ⟨.connect "knows" (.properties ["age"])
      (some (.map [("$not", .list [.map [("$less", .map [("age", .int 1)])]])])) none
      (.properties ["id"]), [.name "a"]⟩
    Store.Agree q.named (s "glad") (s "sad")
      ∧ (q.sign [7]).run [7] (s "glad") (fun _ => true) =
        (q.sign [7]).run [7] (s "sad") (fun _ => true) := by
  intro s q
  have hlook : ∀ mood id, (s mood).vertex? id = if "a" = id then
      some ⟨"a", "Person", [("age", .int 3), ("mood", .string mood)]⟩ else none :=
    fun _ _ => rfl
  have hnamed : q.named = ["age", "age", "id"] := by decide
  have hagree : Store.Agree q.named (s "glad") (s "sad") := by
    refine ⟨rfl, rfl, rfl, rfl, ?_, ?_⟩
    · intro id v w hv hw
      rw [hlook] at hv hw
      split at hv
      · next h =>
        rw [if_pos h] at hw
        cases hv
        cases hw
        exact ⟨rfl, rfl⟩
      · cases hv
    · intro id k hk
      rw [hnamed] at hk
      rw [Store.property?, Store.property?, hlook, hlook]
      split
      · simp only [List.mem_cons, List.not_mem_nil, or_false] at hk
        rcases hk with rfl | rfl | rfl <;> rfl
      · rfl
  exact ⟨hagree, unnamed_properties_do_not_matter [7] (fun _ => true) hagree⟩

end Query

end Reading

end PropertyGraph
