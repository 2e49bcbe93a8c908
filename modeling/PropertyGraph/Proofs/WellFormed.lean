import PropertyGraph.Proofs.Restriction
import PropertyGraph.Proofs.SortedEntries
import PropertyGraph.Store.Run

namespace PropertyGraph

/-- No property stands under a name that reads the identity of the vertex. -/
def Vertex.Clean (v : Vertex) : Prop := ∀ p ∈ v.properties, p.1 ∉ reservedKeys

namespace Store

variable {s : Store} {e : Edge} {id : VertexId} {v : Vertex}

/-- What holds in every store that grew from the empty one: both sides of the adjacency have the
ids of the vertices as their keys and list the same types in the same order, records know their
id, and each vertex is in the bucket of its type. -/
structure WellFormed (s : Store) : Prop where
  outgoing_keys : s.outgoing.keys = s.vertices.keys
  incoming_keys : s.incoming.keys = s.vertices.keys
  outgoing_pruned : ∀ id, (s.outgoingOf id).Pruned
  incoming_pruned : ∀ id, (s.incomingOf id).Pruned
  same_types : ∀ a b, (s.outgoingOf a).types b = (s.incomingOf b).types a
  own_id : ∀ id v, s.vertex? id = some v → v.id = id
  clean : ∀ id v, s.vertex? id = some v → v.Clean
  indexed : ∀ id v, s.vertex? id = some v → id ∈ s.idsOf (some v.type)

/-- Each id in a bucket is a vertex of that type. -/
def Filed (s : Store) : Prop :=
  ∀ type id, id ∈ s.idsOf (some type) → ∃ v, s.vertex? id = some v ∧ v.type = type

theorem WellFormed.mirrored (h : s.WellFormed) : s.Mirrored :=
  ⟨h.outgoing_pruned, h.incoming_pruned, fun a b t => by rw [h.same_types]⟩

theorem wellFormed_empty : empty.WellFormed where
  outgoing_keys := rfl
  incoming_keys := rfl
  outgoing_pruned _ := Adjacency.pruned_empty
  incoming_pruned _ := Adjacency.pruned_empty
  same_types _ _ := rfl
  own_id _ _ hv := by cases hv
  clean _ _ hv := by cases hv
  indexed _ _ hv := by cases hv

theorem filed_empty : empty.Filed := by
  intro type id hm
  cases hm

theorem vertex?_eq_none : s.vertex? id = none ↔ id ∉ s.vertices.keys := s.vertices.get?_eq_none_iff

theorem mem_keys_of_vertex? (hv : s.vertex? id = some v) : id ∈ s.vertices.keys :=
  OrderedMap.mem_keys_of_get? hv

theorem hasVertex_iff : s.hasVertex id = true ↔ id ∈ s.vertices.keys := s.vertices.contains_iff

theorem hasVertex_of_vertex? (hv : s.vertex? id = some v) : s.hasVertex id = true :=
  hasVertex_iff.mpr (mem_keys_of_vertex? hv)

/-- Where only vertices have entries, both ends of an edge are vertices. -/
theorem Mirrored.ends (h : s.Mirrored) (houtgoing : ∀ id ∈ s.outgoing.keys, id ∈ s.vertices.keys)
    (hincoming : ∀ id ∈ s.incoming.keys, id ∈ s.vertices.keys) (he : s.hasEdge e = true) :
    e.origin ∈ s.vertices.keys ∧ e.target ∈ s.vertices.keys := by
  rw [hasEdge_iff] at he
  constructor
  · apply houtgoing
    by_contra hn
    rw [outgoingOf, s.outgoing.get?_eq_none_iff.mpr hn] at he
    cases he
  · apply hincoming
    rw [h.agree] at he
    by_contra hn
    rw [incomingOf, s.incoming.get?_eq_none_iff.mpr hn] at he
    cases he

/-- Both ends of an edge are vertices. -/
theorem WellFormed.ends (h : s.WellFormed) (he : s.hasEdge e = true) :
    e.origin ∈ s.vertices.keys ∧ e.target ∈ s.vertices.keys :=
  h.mirrored.ends (fun _ hid => h.outgoing_keys ▸ hid) (fun _ hid => h.incoming_keys ▸ hid) he

/-- The type index with an id put into the bucket of a type. -/
def filing (index : OrderedMap String (OrderedSet VertexId)) (type : String) (id : VertexId) :
    OrderedMap String (OrderedSet VertexId) :=
  index.insert type (((index.get? type).getD .empty).insert id)

/-- One side of the adjacency with an entry for a vertex that may be new. -/
def opened (s : Store) (id : VertexId) (side : OrderedMap VertexId Adjacency) :
    OrderedMap VertexId Adjacency :=
  if s.hasVertex id then side else side.insert id .empty

/-- The store with a record written, for a vertex that may be new. -/
def stored (s : Store) (v : Vertex) : Store :=
  ⟨s.vertices.insert v.id v, s.opened v.id s.outgoing, s.opened v.id s.incoming,
    filing s.typeIndex v.type v.id⟩

/-- The store with an edge between two vertices that was not there. -/
def linked (s : Store) (e : Edge) : Store :=
  ⟨s.vertices, s.outgoing.insert e.origin ((s.outgoingOf e.origin).link e.target e.type),
    s.incoming.insert e.target ((s.incomingOf e.target).link e.origin e.type), s.typeIndex⟩

/-- An id is listed under a type if the type has a bucket and the id is in it. -/
theorem mem_idsOf_some {type : String} :
    id ∈ s.idsOf (some type) ↔
      ∃ bucket, s.typeIndex.get? type = some bucket ∧ id ∈ bucket.elems := by
  simp only [idsOf]
  cases s.typeIndex.get? type <;> simp [OrderedSet.empty]

theorem mem_idsOf_stored {type : String} :
    id ∈ (s.stored v).idsOf (some type) ↔
      (type = v.type ∧ id = v.id) ∨ id ∈ s.idsOf (some type) := by
  simp only [idsOf, stored, filing, OrderedMap.get?_insert]
  by_cases ht : type = v.type
  · simp [ht, OrderedSet.mem_insert]
  · simp [ht]

/-- A vertex leaves the bucket of its type, and the others there keep their order. -/
theorem idsOf_without (s : Store) (id : VertexId) (u type : String) :
    (s.without id u).idsOf (some type) =
      if type = u then (s.idsOf (some type)).filter (fun x => x ≠ id)
      else s.idsOf (some type) := by
  simp only [idsOf, without, OrderedMap.get?_modify]
  by_cases ht : type = u
  · subst ht
    cases s.typeIndex.get? type <;> simp [OrderedSet.empty, OrderedSet.erase]
  · simp [ht]

theorem mem_idsOf_without {type u : String} {x : VertexId} :
    x ∈ (s.without id u).idsOf (some type) ↔ x ∈ s.idsOf (some type) ∧ ¬ (type = u ∧ x = id) := by
  rw [idsOf_without]
  by_cases ht : type = u <;> simp [ht]

theorem vertex?_stored (s : Store) (v : Vertex) (id : VertexId) :
    (s.stored v).vertex? id = if id = v.id then some v else s.vertex? id :=
  s.vertices.get?_insert v.id id v

theorem vertex?_without (s : Store) (id x : VertexId) (type : String) :
    (s.without id type).vertex? x = if x = id then none else s.vertex? x :=
  s.vertices.get?_erase id x

theorem keys_opened {side : OrderedMap VertexId Adjacency} (hk : side.keys = s.vertices.keys)
    (v : Vertex) : (s.opened v.id side).keys = (s.vertices.insert v.id v).keys := by
  unfold opened
  split
  · next hp => rw [OrderedMap.keys_insert_of_mem (hasVertex_iff.mp hp), hk]
  · next hp =>
    have hn : v.id ∉ s.vertices.keys := fun hm => hp (hasVertex_iff.mpr hm)
    rw [OrderedMap.keys_insert_of_not_mem hn, OrderedMap.keys_insert_of_not_mem (hk ▸ hn), hk]

/-- An entry is opened empty, as a missing entry reads. -/
theorem getD_opened {side : OrderedMap VertexId Adjacency}
    (hk : ∀ id ∈ side.keys, id ∈ s.vertices.keys) (id x : VertexId) :
    ((s.opened id side).get? x).getD .empty = (side.get? x).getD .empty := by
  unfold opened
  split
  · rfl
  · next hp =>
    rw [OrderedMap.get?_insert]
    split
    · next he =>
      have hn : x ∉ side.keys := fun hm => hp (hasVertex_iff.mpr (he ▸ hk x hm))
      rw [side.get?_eq_none_iff.mpr hn]
      rfl
    · rfl

theorem WellFormed.outgoingOf_stored (h : s.WellFormed) (v : Vertex) (id : VertexId) :
    (s.stored v).outgoingOf id = s.outgoingOf id :=
  getD_opened (fun _ hm => h.outgoing_keys ▸ hm) v.id id

theorem WellFormed.incomingOf_stored (h : s.WellFormed) (v : Vertex) (id : VertexId) :
    (s.stored v).incomingOf id = s.incomingOf id :=
  getD_opened (fun _ hm => h.incoming_keys ▸ hm) v.id id

theorem WellFormed.stored (h : s.WellFormed) (hv : v.Clean) : (s.stored v).WellFormed where
  outgoing_keys := keys_opened h.outgoing_keys v
  incoming_keys := keys_opened h.incoming_keys v
  outgoing_pruned id := by
    rw [h.outgoingOf_stored]
    exact h.outgoing_pruned id
  incoming_pruned id := by
    rw [h.incomingOf_stored]
    exact h.incoming_pruned id
  same_types a b := by
    rw [h.outgoingOf_stored, h.incomingOf_stored, h.same_types]
  own_id id w hw := by
    rw [vertex?_stored] at hw
    split at hw
    · next he =>
      cases hw
      exact he.symm
    · exact h.own_id id w hw
  clean id w hw := by
    rw [vertex?_stored] at hw
    split at hw
    · cases hw
      exact hv
    · exact h.clean id w hw
  indexed id w hw := by
    rw [vertex?_stored] at hw
    rw [mem_idsOf_stored]
    split at hw
    · next he =>
      cases hw
      exact Or.inl ⟨rfl, he⟩
    · exact Or.inr (h.indexed id w hw)

theorem getD_erase (side : OrderedMap VertexId Adjacency) (id x : VertexId) :
    ((side.erase id).get? x).getD .empty =
      if x = id then .empty else (side.get? x).getD .empty := by
  rw [OrderedMap.get?_erase]
  split <;> rfl

theorem outgoingOf_without (s : Store) (id x : VertexId) (type : String) :
    (s.without id type).outgoingOf x =
      if x = id then .empty else (s.restrict (avoids id)).outgoingOf x :=
  getD_erase (s.restrict (avoids id)).outgoing id x

theorem incomingOf_without (s : Store) (id x : VertexId) (type : String) :
    (s.without id type).incomingOf x =
      if x = id then .empty else (s.restrict (avoids id)).incomingOf x :=
  getD_erase (s.restrict (avoids id)).incoming id x

/-- The types of the edges from one vertex to another, once a third has gone. -/
theorem types_outgoing_without (s : Store) (id a b : VertexId) (type : String) :
    ((s.without id type).outgoingOf a).types b =
      if a = id ∨ b = id then [] else (s.outgoingOf a).types b := by
  rw [outgoingOf_without]
  by_cases ha : a = id
  · simp [ha]
  · by_cases hb : b = id <;> simp [ha, hb, avoids]

theorem types_incoming_without (s : Store) (id a b : VertexId) (type : String) :
    ((s.without id type).incomingOf b).types a =
      if a = id ∨ b = id then [] else (s.incomingOf b).types a := by
  rw [incomingOf_without]
  by_cases hb : b = id
  · simp [hb]
  · by_cases ha : a = id <;> simp [ha, hb, avoids]

theorem Mirrored.without (h : s.Mirrored) (id : VertexId) (type : String) :
    (s.without id type).Mirrored := by
  refine ⟨fun x => ?_, fun x => ?_, fun a b t => ?_⟩
  · rw [outgoingOf_without]
    split
    · exact Adjacency.pruned_empty
    · exact (h.restrict _).outgoing x
  · rw [incomingOf_without]
    split
    · exact Adjacency.pruned_empty
    · exact (h.restrict _).incoming x
  · rw [types_outgoing_without, types_incoming_without]
    split
    · rfl
    · exact h.agree a b t

theorem WellFormed.without (h : s.WellFormed) (id : VertexId) (type : String) :
    (s.without id type).WellFormed where
  outgoing_keys := by
    simp only [Store.without, OrderedMap.keys_erase, restrict, keys_restrictSide, h.outgoing_keys]
  incoming_keys := by
    simp only [Store.without, OrderedMap.keys_erase, restrict, keys_restrictSide, h.incoming_keys]
  outgoing_pruned := (h.mirrored.without id type).outgoing
  incoming_pruned := (h.mirrored.without id type).incoming
  same_types a b := by
    rw [types_outgoing_without, types_incoming_without, h.same_types]
  own_id x w hw := by
    rw [vertex?_without] at hw
    split at hw
    · cases hw
    · exact h.own_id x w hw
  clean x w hw := by
    rw [vertex?_without] at hw
    split at hw
    · cases hw
    · exact h.clean x w hw
  indexed x w hw := by
    rw [vertex?_without] at hw
    split at hw
    · cases hw
    · next hx => exact mem_idsOf_without.mpr ⟨h.indexed x w hw, fun he => hx he.2⟩

theorem getD_insert (side : OrderedMap VertexId Adjacency) (id x : VertexId) (a : Adjacency) :
    ((side.insert id a).get? x).getD .empty =
      if x = id then a else (side.get? x).getD .empty := by
  rw [OrderedMap.get?_insert]
  split <;> rfl

theorem outgoingOf_linked (s : Store) (e : Edge) (x : VertexId) :
    (s.linked e).outgoingOf x =
      if x = e.origin then (s.outgoingOf e.origin).link e.target e.type else s.outgoingOf x :=
  getD_insert s.outgoing e.origin x _

theorem incomingOf_linked (s : Store) (e : Edge) (x : VertexId) :
    (s.linked e).incomingOf x =
      if x = e.target then (s.incomingOf e.target).link e.origin e.type else s.incomingOf x :=
  getD_insert s.incoming e.target x _

theorem Mirrored.linked (h : s.Mirrored) (hn : s.hasEdge e = false) : (s.linked e).Mirrored := by
  have hout : e.type ∉ (s.outgoingOf e.origin).types e.target := by
    simpa [← hasEdge_iff] using hn
  refine ⟨fun x => ?_, fun x => ?_, fun a b t => ?_⟩
  · rw [outgoingOf_linked]
    split
    · exact (h.outgoing e.origin).link hout
    · exact h.outgoing x
  · rw [incomingOf_linked]
    split
    · exact (h.incoming e.target).link (fun hm => hout ((h.agree _ _ _).mpr hm))
    · exact h.incoming x
  · rw [outgoingOf_linked, incomingOf_linked]
    by_cases ha : a = e.origin <;> by_cases hb : b = e.target <;>
      simp [ha, hb, Adjacency.types_link, h.agree]

theorem WellFormed.linked (h : s.WellFormed) (ho : e.origin ∈ s.vertices.keys)
    (ht : e.target ∈ s.vertices.keys) (hn : s.hasEdge e = false) : (s.linked e).WellFormed where
  outgoing_keys := by
    rw [Store.linked, OrderedMap.keys_insert_of_mem (h.outgoing_keys ▸ ho), h.outgoing_keys]
  incoming_keys := by
    rw [Store.linked, OrderedMap.keys_insert_of_mem (h.incoming_keys ▸ ht), h.incoming_keys]
  outgoing_pruned := (h.mirrored.linked hn).outgoing
  incoming_pruned := (h.mirrored.linked hn).incoming
  same_types a b := by
    rw [outgoingOf_linked, incomingOf_linked]
    by_cases ha : a = e.origin <;> by_cases hb : b = e.target <;>
      simp [ha, hb, Adjacency.types_link, h.same_types]
  own_id := h.own_id
  clean := h.clean
  indexed := h.indexed

theorem WellFormed.restrict (h : s.WellFormed) (keep : Edge → Bool) :
    (s.restrict keep).WellFormed where
  outgoing_keys := by rw [Store.restrict, keys_restrictSide, h.outgoing_keys]
  incoming_keys := by rw [Store.restrict, keys_restrictSide, h.incoming_keys]
  outgoing_pruned := (h.mirrored.restrict keep).outgoing
  incoming_pruned := (h.mirrored.restrict keep).incoming
  same_types a b := by
    simp only [outgoingOf_restrict, incomingOf_restrict, Adjacency.types_restrict, h.same_types]
  own_id := h.own_id
  clean := h.clean
  indexed := h.indexed

theorem WellFormed.hasEdge_stored (h : s.WellFormed) (v : Vertex) (e : Edge) :
    (s.stored v).hasEdge e = s.hasEdge e := by
  rw [hasEdge, hasEdge, h.outgoingOf_stored]

theorem hasEdge_without (s : Store) (id : VertexId) (type : String) (e : Edge) :
    (s.without id type).hasEdge e = (s.hasEdge e && avoids id e) := by
  rw [hasEdge, types_outgoing_without, hasEdge]
  by_cases ho : e.origin = id
  · simp [ho, avoids]
  · by_cases ht : e.target = id <;> simp [ho, ht, avoids]

theorem hasEdge_linked (s : Store) (e x : Edge) :
    (s.linked e).hasEdge x = (s.hasEdge x || decide (x = e)) := by
  obtain ⟨origin, target, type⟩ := e
  obtain ⟨a, b, t⟩ := x
  rw [hasEdge, outgoingOf_linked, hasEdge]
  by_cases ha : a = origin
  · by_cases hb : b = target <;> simp [ha, hb, Adjacency.types_link]
  · simp [ha]

end Store

end PropertyGraph
