import PropertyGraph.Proofs.Snapshot
import PropertyGraph.Store.SnapshotJson

namespace PropertyGraph

namespace Store

variable {s t u : Store} {e : Edge} {id : VertexId} {m : Mutation} {o : Outcome}

/-- Both sides of the adjacency have entries for the vertices, and for nothing else. -/
structure Keyed (s : Store) : Prop where
  outgoing : ∀ id, id ∈ s.outgoing.keys ↔ id ∈ s.vertices.keys
  incoming : ∀ id, id ∈ s.incoming.keys ↔ id ∈ s.vertices.keys

/-- Each record names the key that it lies under and keeps no property under a reserved name. -/
def Recorded (s : Store) : Prop := ∀ id v, s.vertex? id = some v → v.id = id ∧ v.Clean

/-- The second store differs from the first in its edges at most. -/
structure Rewired (s t : Store) : Prop where
  vertices : t.vertices = s.vertices
  outgoing : t.outgoing.keys = s.outgoing.keys
  incoming : t.incoming.keys = s.incoming.keys

theorem Rewired.refl (s : Store) : s.Rewired s := ⟨rfl, rfl, rfl⟩

theorem Rewired.trans (hst : s.Rewired t) (htu : t.Rewired u) : s.Rewired u where
  vertices := htu.vertices.trans hst.vertices
  outgoing := htu.outgoing.trans hst.outgoing
  incoming := htu.incoming.trans hst.incoming

theorem rewired_unlink (s : Store) (e : Edge) : s.Rewired (s.unlink e).1 := by
  unfold unlink
  split
  · exact ⟨rfl, OrderedMap.keys_modify .., OrderedMap.keys_modify ..⟩
  · exact .refl s

theorem rewired_unlinkAll (s : Store) (es : List Edge) : s.Rewired (s.unlinkAll es) := by
  unfold unlinkAll
  induction es generalizing s with
  | nil => exact .refl s
  | cons e rest ih => exact (rewired_unlink s e).trans (ih (s.unlink e).1)

theorem Keyed.rewired_link (h : s.Keyed) (ht : e.target ∈ s.vertices.keys) :
    s.Rewired (s.link e).1 := by
  unfold link
  split
  · exact .refl s
  · next leaving hl =>
    split
    · exact .refl s
    · exact ⟨rfl, OrderedMap.keys_insert_of_mem (OrderedMap.mem_keys_of_get? hl) _,
        OrderedMap.keys_insert_of_mem ((h.incoming _).mpr ht) _⟩

/-- All that a mutation which succeeds can do to the records of a store and to the keys of its
adjacency, also if the records are not in order. -/
inductive Turn (s : Store) : Outcome → Prop where
  | stored (v : Vertex) (clean : v.Clean) :
      Turn s ⟨s.stored v, .done,
        some (match s.vertex? v.id with
          | none => .createNode v
          | some previous => .updateNode previous v)⟩
  | written (id : VertexId) (v : Vertex) (key : String) (value : Value)
      (found : s.vertex? id = some v) (open_ : key ∉ reservedKeys) :
      Turn s ⟨⟨s.vertices.insert id (v.written key value), s.outgoing, s.incoming, s.typeIndex⟩,
        .done, some (.updateNode v (v.written key value))⟩
  | removed (id : VertexId) (v : Vertex) (edges : List Edge) (bare : Store)
      (index : OrderedMap String (OrderedSet VertexId))
      (found : s.vertex? id = some v) (cut : s.Rewired bare) :
      Turn s ⟨⟨bare.vertices.erase id, bare.outgoing.erase id, bare.incoming.erase id, index⟩,
        .removed edges, some (.deleteNode v edges)⟩
  | rewired (t : Store) (b : Bool) (event : Option Event) (cut : s.Rewired t)
      (edge : ∀ x, event = some x → x.edge?.isSome = true) : Turn s ⟨t, .changed b, event⟩

theorem perform_setProperty_found {v : Vertex} (hv : s.vertex? id = some v) {key : String}
    (hk : key ∉ reservedKeys) (value : Value) :
    s.perform (.setProperty id key value) =
      .ok ⟨⟨s.vertices.insert id (v.written key value), s.outgoing, s.incoming, s.typeIndex⟩,
        .done, some (.updateNode v (v.written key value))⟩ := by
  have hc : ¬ reservedKeys.contains key = true := by simpa using hk
  rw [perform, setProperty, if_neg hc, hv]
  rfl

theorem isSome_edge?_of_ite {b : Bool} {event x : Event} (he : event.edge?.isSome = true)
    (hx : (if b then some event else none) = some x) : x.edge?.isSome = true := by
  obtain ⟨_, hx⟩ := Option.ite_none_right_eq_some.mp hx
  cases hx
  exact he

theorem Keyed.perform_turn (h : s.Keyed) (hm : s.perform m = .ok o) : s.Turn o := by
  cases m with
  | setVertex id type properties =>
    have hstored := Turn.stored (s := s) _ (Vertex.clean_cleaned id type properties)
    cases hv : s.vertex? id with
    | none =>
      rw [perform_setVertex_absent hv] at hm
      cases hm
      simpa only [Vertex.cleaned, hv] using hstored
    | some v =>
      rw [perform_setVertex_present hv] at hm
      cases hm
      simpa only [Vertex.cleaned, hv] using hstored
  | setProperty id key value =>
    by_cases hk : key ∈ reservedKeys
    · rw [perform_setProperty_reserved s id hk] at hm
      cases hm
    · cases hv : s.vertex? id with
      | none =>
        rw [perform_setProperty_absent hv hk] at hm
        cases hm
      | some v =>
        rw [perform_setProperty_found hv hk] at hm
        cases hm
        exact .written id v key value hv hk
  | removeVertex id =>
    cases hv : s.vertex? id with
    | none =>
      rw [perform_removeVertex_absent hv] at hm
      cases hm
    | some v =>
      rw [perform, removeVertex, hv] at hm
      cases hm
      exact .removed id v _ _ _ hv ((rewired_unlinkAll _ _).trans (rewired_unlinkAll _ _))
  | setEdge e =>
    by_cases ho : e.origin ∈ s.vertices.keys
    · by_cases ht : e.target ∈ s.vertices.keys
      · have hl := h.rewired_link (e := e) ht
        rw [← hasVertex_iff] at ho ht
        rw [perform, setEdge, if_neg (by simpa using ho), if_neg (by simpa using ht)] at hm
        cases hm
        exact .rewired _ _ _ hl (fun x hx => isSome_edge?_of_ite rfl hx)
      · rw [perform_setEdge_noTarget ho ht] at hm
        cases hm
    · rw [perform_setEdge_noOrigin ho] at hm
      cases hm
  | removeEdge e =>
    rw [perform, removeEdge] at hm
    cases hm
    exact .rewired _ _ _ (rewired_unlink s e) (fun x hx => isSome_edge?_of_ite rfl hx)

theorem Keyed.stored (h : s.Keyed) (v : Vertex) : (s.stored v).Keyed := by
  have hside : ∀ side : OrderedMap VertexId Adjacency,
      (∀ id, id ∈ side.keys ↔ id ∈ s.vertices.keys) →
        ∀ id, id ∈ (s.opened v.id side).keys ↔ id ∈ (s.vertices.insert v.id v).keys := by
    intro side hk id
    unfold opened
    rw [OrderedMap.mem_keys_insert]
    split
    · next hp =>
      rw [hk]
      exact ⟨Or.inr, fun hm => hm.elim (fun he => he ▸ hasVertex_iff.mp hp) (fun hm => hm)⟩
    · rw [OrderedMap.mem_keys_insert, hk]
  exact ⟨hside _ h.outgoing, hside _ h.incoming⟩

theorem Turn.keyed (ht : s.Turn o) (h : s.Keyed) : o.store.Keyed := by
  cases ht with
  | stored v _ => exact h.stored v
  | written id v key value found _ =>
    have hk := OrderedMap.keys_insert_of_mem (mem_keys_of_vertex? found) (v.written key value)
    exact ⟨fun x => by rw [hk, h.outgoing], fun x => by rw [hk, h.incoming]⟩
  | removed id v edges bare index _ cut =>
    constructor <;> intro x <;> dsimp only <;>
      simp only [OrderedMap.keys_erase, cut.vertices, cut.outgoing, cut.incoming, List.mem_filter,
        h.outgoing, h.incoming]
  | rewired t b event cut _ =>
    exact ⟨fun x => by rw [cut.outgoing, cut.vertices, h.outgoing],
      fun x => by rw [cut.incoming, cut.vertices, h.incoming]⟩

theorem Turn.recorded (ht : s.Turn o) (h : s.Recorded) : o.store.Recorded := by
  intro x w hw
  cases ht with
  | stored v clean =>
    rw [vertex?_stored] at hw
    split at hw
    · next he =>
      cases hw
      exact ⟨he.symm, clean⟩
    · exact h x w hw
  | written id v key value found hk =>
    rw [vertex?, OrderedMap.get?_insert] at hw
    split at hw
    · next he =>
      cases hw
      obtain ⟨hid, hclean⟩ := h id v found
      exact ⟨hid.trans he.symm, hclean.written hk value⟩
    · exact h x w hw
  | removed id v edges bare index _ cut =>
    rw [vertex?, OrderedMap.get?_erase, cut.vertices] at hw
    split at hw
    · cases hw
    · exact h x w hw
  | rewired t b event cut _ =>
    rw [vertex?, cut.vertices] at hw
    exact h x w hw

end Store

/-- Whether the vertices that an event tells of lie under the ids that they name there: those that
are gone in the store before, those that are new in the store behind it. -/
def Event.Names (before after : Store) : Event → Prop
  | createNode v => after.vertex? v.id = some v
  | updateNode previous v => before.vertex? previous.id = some previous ∧
      after.vertex? v.id = some v
  | deleteNode v _ => before.vertex? v.id = some v
  | makeEdge _ | deleteEdge _ => True

namespace Store

variable {s : Store} {m : Mutation} {o : Outcome} {event : Event}

theorem vertex?_stored_self (s : Store) (v : Vertex) : (s.stored v).vertex? v.id = some v := by
  rw [vertex?_stored, if_pos rfl]

theorem Turn.names (ht : s.Turn o) (h : s.Recorded) (he : o.event = some event) :
    event.Names s o.store := by
  cases ht with
  | stored v clean =>
    cases hv : s.vertex? v.id with
    | none =>
      rw [hv] at he
      cases he
      exact vertex?_stored_self s v
    | some previous =>
      rw [hv] at he
      cases he
      refine ⟨?_, vertex?_stored_self s v⟩
      rw [(h v.id previous hv).1, hv]
  | written id v key value found _ =>
    cases he
    have hid := (h id v found).1
    refine ⟨hid ▸ found, ?_⟩
    rw [vertex?, Vertex.written, hid]
    exact OrderedMap.get?_insert_self _ _ _
  | removed id v edges bare index found _ =>
    cases he
    exact (h id v found).1 ▸ found
  | rewired t b x _ edge =>
    have hx := edge event he
    cases event with
    | createNode _ | updateNode _ _ | deleteNode _ _ => cases hx
    | makeEdge _ | deleteEdge _ => trivial

theorem Recorded.call (h : s.Recorded) (hk : s.Keyed) {c : Call} (hc : s.call c = .ok o) :
    o.store.Recorded ∧ ∀ event, o.event = some event → event.Names s o.store := by
  rcases call_cases hc with ⟨m, _, hm⟩ | ⟨_, rfl⟩
  · have ht := hk.perform_turn hm
    exact ⟨ht.recorded h, fun event he => ht.names h he⟩
  · refine ⟨h, ?_⟩
    intro event he
    cases he

theorem Keyed.after (h : s.Keyed) (c : Call) : (s.after c).Keyed := by
  rcases s.after_cases c with he | ⟨m, o, _, ho, he⟩
  · rwa [he]
  · rw [he]
    exact (h.perform_turn ho).keyed h

theorem Recorded.after (h : s.Recorded) (hk : s.Keyed) (c : Call) : (s.after c).Recorded := by
  rcases s.after_cases c with he | ⟨m, o, _, ho, he⟩
  · rwa [he]
  · rw [he]
    exact (hk.perform_turn ho).recorded h

theorem Recorded.run (h : s.Recorded) (hk : s.Keyed) (calls : List Call) :
    (s.run calls).Recorded ∧ (s.run calls).Keyed := by
  unfold Store.run
  induction calls generalizing s with
  | nil => exact ⟨h, hk⟩
  | cons c rest ih => exact ih (h.after hk c) (hk.after c)

end Store

namespace Snapshot

variable {s : Snapshot} {t : Store} {vertices : OrderedMap VertexId Vertex}
  {this other : OrderedMap VertexId Adjacency}

theorem SideFits.mem_keys (h : SideFits vertices this other) (id : VertexId) :
    id ∈ (completed vertices.keys this).keys ↔ id ∈ vertices.keys := by
  rw [mem_keys_completed]
  constructor
  · rintro (hk | hk)
    · obtain ⟨a, ha⟩ := this.mem_keys_iff.mp hk
      exact (h id a ha).1
    · exact hk
  · exact Or.inr

theorem SideFits.pruned (h : SideFits vertices this other) (id : VertexId) :
    ((this.get? id).getD .empty).Pruned := by
  cases ha : this.get? id with
  | none => exact Adjacency.pruned_empty
  | some a =>
    intro n types hn
    obtain ⟨_, hne, hnodup, _⟩ := (h id a ha).2 n types hn
    exact ⟨hne, hnodup⟩

/-- What is listed for a neighbour stands in an entry. -/
theorem mem_types_getD {side : OrderedMap VertexId Adjacency} {a b : VertexId} {t : String} :
    t ∈ ((side.get? a).getD .empty).types b ↔
      ∃ adjacency types, side.get? a = some adjacency ∧ adjacency.get? b = some types ∧
        t ∈ types := by
  cases side.get? a with
  | none => simp
  | some adjacency =>
    unfold Adjacency.types
    cases h : adjacency.get? b <;> simp [h]

theorem mirrored_types {a b : VertexId} {types : List String}
    (h : mirrored other a b types = true) {t : String} (ht : t ∈ types) :
    t ∈ ((other.get? b).getD .empty).types a := by
  obtain ⟨back, hb, _, hsubset⟩ := mirrored_iff.mp h
  obtain ⟨adjacency, ho, hback⟩ := Option.bind_eq_some_iff.mp hb
  exact mem_types_getD.mpr ⟨adjacency, back, ho, hback, hsubset ht⟩

/-- The other side lists what this side lists. -/
theorem SideFits.mem_types (h : SideFits vertices this other) {a b : VertexId} {t : String}
    (ht : t ∈ ((this.get? a).getD .empty).types b) :
    t ∈ ((other.get? b).getD .empty).types a := by
  obtain ⟨adjacency, types, ha, hb, ht⟩ := mem_types_getD.mp ht
  obtain ⟨_, _, _, hm⟩ := (h a adjacency ha).2 b types hb
  exact mirrored_types hm ht

theorem Consistent.store_keyed (h : s.Consistent) : s.store.Keyed :=
  ⟨h.outgoing.mem_keys, h.incoming.mem_keys⟩

theorem Consistent.store_mirrored (h : s.Consistent) : s.store.Mirrored := by
  have ho : ∀ id, s.store.outgoingOf id = (s.outgoing.get? id).getD .empty :=
    getD_completed s.vertices.keys s.outgoing
  have hi : ∀ id, s.store.incomingOf id = (s.incoming.get? id).getD .empty :=
    getD_completed s.vertices.keys s.incoming
  refine ⟨fun id => ?_, fun id => ?_, fun a b t => ?_⟩
  · rw [ho]
    exact h.outgoing.pruned id
  · rw [hi]
    exact h.incoming.pruned id
  · rw [ho, hi]
    exact ⟨h.outgoing.mem_types, h.incoming.mem_types⟩

theorem Consistent.store_filed (h : s.Consistent) : s.store.Filed := by
  intro type id hm
  obtain ⟨bucket, hb, hid⟩ := Store.mem_idsOf_some.mp hm
  exact h.filed type bucket hb id hid

/-- What is restored from an accepted snapshot fits together but for its records, which are taken
as they are. They name their keys and keep no reserved property if those of the snapshot do; then
this goes on through all later calls, and events name the keys too. -/
theorem restored_records_name_keys_iff (hr : s.restore = .ok t) :
    t.Keyed ∧ t.Mirrored ∧ t.Filed ∧
    (∀ id v, t.vertex? id = some v → id ∈ t.idsOf (some v.type)) ∧
    ((∀ id v, s.vertices.get? id = some v → v.id = id ∧ v.Clean) ↔
      ∀ calls, (t.run calls).Recorded ∧
        ∀ c o, (t.run calls).call c = .ok o → ∀ event, o.event = some event →
          event.Names (t.run calls) o.store) := by
  obtain ⟨h, rfl⟩ := restore_eq_ok_iff.mp hr
  refine ⟨h.store_keyed, h.store_mirrored, h.store_filed,
    fun id v hv => Store.mem_idsOf_some.mpr (h.indexed id v hv), ?_, ?_⟩
  · intro hs calls
    have hstart : s.store.Recorded := hs
    obtain ⟨hrun, hkeyed⟩ := hstart.run h.store_keyed calls
    exact ⟨hrun, fun c o hc => (hrun.call hkeyed hc).2⟩
  · intro hs
    exact (hs []).1

/-- The two sides list the types in different orders, which is accepted; the records are in order
and stay so. -/
theorem unordered_types_are_restored :
    let v : Vertex := ⟨"a", "Person", []⟩
    let s : Snapshot := ⟨.ofList [("a", v)], .ofList [("a", .ofList [("a", ["likes", "knows"])])],
      .ofList [("a", .ofList [("a", ["knows", "likes"])])], .ofList [("Person", .ofList ["a"])]⟩
    s.restore = .ok s.store ∧ ∀ calls, (s.store.run calls).Recorded := by
  intro v s
  have hr : s.restore = .ok s.store := by rfl
  have hv : ∀ id w, s.vertices.get? id = some w → w.id = id ∧ w.Clean := by
    intro id w hw
    have hm : (id, w) ∈ [("a", v)] := OrderedMap.mem_entries_iff.mpr hw
    simp only [List.mem_singleton, Prod.mk.injEq] at hm
    obtain ⟨rfl, rfl⟩ := hm
    exact ⟨rfl, fun p hp => by cases hp⟩
  obtain ⟨_, _, _, _, hrecords⟩ := restored_records_name_keys_iff hr
  exact ⟨hr, fun calls => (hrecords.mp hv calls).1⟩

/-- A written snapshot is accepted though a record names another id than its key and keeps a
property under a reserved name. The key then reads a vertex of the other id, and so does the event
of a write. -/
theorem misnamed_record_is_restored :
    let text := "\x7b\"vertices\": \x7b\"a\": \x7b\"id\": \"b\", \"type\": \"T\", \"properties\": "
      ++ "\x7b\"id\": 1\x7d\x7d\x7d, \"edges_from\": \x7b\x7d, \"edges_to\": \x7b\x7d, "
      ++ "\"type_index\": \x7b\"T\": [\"a\"]\x7d\x7d"
    let restored := (parse? text).bind (fun s => s.restore.toOption)
    restored.any (fun t =>
      (t.vertex? "a").any (fun v => v.id = "b" && v.properties.map Prod.fst = ["id"])
        && match t.perform (.setProperty "a" "age" .null) with
          | .ok ⟨_, _, some (.updateNode _ v)⟩ => v.id = "b"
          | _ => false) = true := by
  decide +kernel

end Snapshot

/-- The stores that there can be: the empty one, the restored ones, and what calls make of
them. -/
inductive Store.Attained : Store → Prop where
  | empty : Attained .empty
  | restored (snapshot : Snapshot) (s : Store) : snapshot.restore = .ok s → Attained s
  | called (s : Store) (c : Call) : Attained s → Attained (s.after c)

theorem Store.Attained.keyed {s : Store} (h : s.Attained) : s.Keyed := by
  induction h with
  | empty => exact ⟨fun _ => Iff.rfl, fun _ => Iff.rfl⟩
  | restored snapshot s hr =>
    obtain ⟨hs, rfl⟩ := Snapshot.restore_eq_ok_iff.mp hr
    exact hs.store_keyed
  | called s c _ ih => exact ih.after c

end PropertyGraph
