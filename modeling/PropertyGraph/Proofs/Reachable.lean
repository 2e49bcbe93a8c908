import PropertyGraph.Proofs.Effect

namespace PropertyGraph

namespace Store

variable {s : Store} {m : Mutation} {o : Outcome}

theorem Filed.stored (h : s.Filed) {v : Vertex}
    (hv : ∀ previous, s.vertex? v.id = some previous → previous.type = v.type) :
    (s.stored v).Filed := by
  intro type id hm
  rw [vertex?_stored]
  by_cases hid : id = v.id
  · refine ⟨v, if_pos hid, ?_⟩
    rcases mem_idsOf_stored.mp hm with ⟨ht, _⟩ | hm
    · exact ht.symm
    · obtain ⟨w, hw, ht⟩ := h type id hm
      rw [← ht, hv w (hid ▸ hw)]
  · rcases mem_idsOf_stored.mp hm with ⟨_, he⟩ | hm
    · exact absurd he hid
    · simpa [hid] using h type id hm

theorem Filed.without (h : s.Filed) {v : Vertex} (hv : s.vertex? v.id = some v) :
    (s.without v.id v.type).Filed := by
  intro type id hm
  obtain ⟨hm, hne⟩ := mem_idsOf_without.mp hm
  obtain ⟨w, hw, ht⟩ := h type id hm
  rw [vertex?_without]
  by_cases hid : id = v.id
  · -- The bucket of another type that held the id would name a vertex of that type.
    rw [hid, hv] at hw
    cases hw
    exact absurd ⟨ht.symm, hid⟩ hne
  · exact ⟨w, by rw [if_neg hid, hw], ht⟩

theorem Effect.filed (he : Effect s m o) (h : s.Filed) (hk : s.keepsType m = true) :
    o.store.Filed := by
  cases he with
  | created v _ absent =>
    refine h.stored ?_
    intro previous hp
    rw [absent] at hp
    cases hp
  | updated previous v _ found kept =>
    refine h.stored ?_
    intro w hw
    rw [found] at hw
    cases hw
    exact kept hk
  | removed v found => exact h.without found
  | made e _ _ _ => exact h
  | deleted e _ => exact h
  | unchanged => exact h

theorem Filed.run (hf : s.Filed) (h : s.WellFormed) {calls : List Call}
    (hk : s.keepsTypes calls = true) : (s.run calls).Filed :=
  h.run_keeps (fun he hk hf => he.filed hf hk) hk hf

/-- The entry for the target in what the outgoing side lists at the origin. -/
def forward? (s : Store) (origin target : VertexId) : Option (List String) :=
  (s.outgoing.get? origin).bind (fun a => a.get? target)

/-- The entry for the origin in what the incoming side lists at the target. -/
def backward? (s : Store) (target origin : VertexId) : Option (List String) :=
  (s.incoming.get? target).bind (fun a => a.get? origin)

theorem WellFormed.forward?_eq (h : s.WellFormed) (a b : VertexId) :
    s.forward? a b = Adjacency.nonempty? ((s.outgoingOf a).types b) :=
  (h.outgoing_pruned a).bind_get?_eq b

theorem WellFormed.backward?_eq (h : s.WellFormed) (a b : VertexId) :
    s.backward? b a = Adjacency.nonempty? ((s.incomingOf b).types a) :=
  (h.incoming_pruned b).bind_get?_eq a

/-- An entry on either side is there for an edge, so it names two vertices. -/
theorem WellFormed.ends_of_forward? (h : s.WellFormed) {a b : VertexId} {types : List String}
    (hf : s.forward? a b = some types) : a ∈ s.vertices.keys ∧ b ∈ s.vertices.keys := by
  rw [h.forward?_eq] at hf
  obtain ⟨rfl, hne⟩ := Adjacency.nonempty?_eq_some hf
  obtain ⟨t, ht⟩ := List.exists_mem_of_ne_nil _ hne
  exact h.ends (e := ⟨a, b, t⟩) (hasEdge_iff.mpr ht)

/-- The four maps of every store that calls build from the empty one fit together. Only the
last part needs a history that gives no present vertex another type. -/
theorem reached_maps_agree (calls : List Call) :
    let s := Store.empty.run calls
    (∀ id, id ∈ s.outgoing.keys ↔ id ∈ s.vertices.keys) ∧
    (∀ id, id ∈ s.incoming.keys ↔ id ∈ s.vertices.keys) ∧
    (∀ a b types, s.forward? a b = some types → b ∈ s.vertices.keys) ∧
    (∀ a b types, s.backward? b a = some types → a ∈ s.vertices.keys) ∧
    (∀ id v, s.vertex? id = some v →
      v.id = id ∧ ∀ key ∈ reservedKeys, key ∉ v.properties.map Prod.fst) ∧
    (∀ a b, s.forward? a b = s.backward? b a) ∧
    (∀ a b types, s.forward? a b = some types → types ≠ [] ∧ types.Nodup) ∧
    (∀ id v, s.vertex? id = some v → id ∈ s.idsOf (some v.type)) ∧
    (Store.empty.keepsTypes calls = true → ∀ type id, id ∈ s.idsOf (some type) →
      ∃ v, s.vertex? id = some v ∧ v.type = type) := by
  intro s
  have h : s.WellFormed := wellFormed_empty.run calls
  have hsame : ∀ a b, s.forward? a b = s.backward? b a := by
    intro a b
    rw [h.forward?_eq, h.backward?_eq, h.same_types]
  refine ⟨?_, ?_, ?_, ?_, ?_, hsame, ?_, h.indexed, ?_⟩
  · intro id
    rw [h.outgoing_keys]
  · intro id
    rw [h.incoming_keys]
  · intro a b types hf
    exact (h.ends_of_forward? hf).2
  · intro a b types hb
    exact (h.ends_of_forward? ((hsame a b).trans hb)).1
  · intro id v hv
    refine ⟨h.own_id id v hv, ?_⟩
    intro key hk hm
    obtain ⟨p, hp, rfl⟩ := List.mem_map.mp hm
    exact h.clean id v hv p hp hk
  · intro a b types hf
    rw [h.forward?_eq] at hf
    obtain ⟨rfl, hne⟩ := Adjacency.nonempty?_eq_some hf
    exact ⟨hne, (h.outgoing_pruned a).nodup b⟩
  · intro hk
    exact filed_empty.run wellFormed_empty hk

theorem removed_vertex_returns_under_another_type :
    let calls : List Call := [.perform (.setVertex "a" "Person" []),
      .perform (.setEdge ⟨"a", "a", "knows"⟩), .perform (.removeVertex "a"),
      .apply (.createNode ⟨"a", "Robot", []⟩)]
    Store.empty.keepsTypes calls = true ∧
      ∀ type id, id ∈ (Store.empty.run calls).idsOf (some type) →
        ∃ v, (Store.empty.run calls).vertex? id = some v ∧ v.type = type := by
  intro calls
  have hk : Store.empty.keepsTypes calls = true := by decide
  obtain ⟨_, _, _, _, _, _, _, _, hfiled⟩ := reached_maps_agree calls
  exact ⟨hk, hfiled hk⟩

/-- A vertex that changes its type stays in the bucket of the old one. -/
example : (Store.empty.run [.perform (.setVertex "a" "Person" []),
    .perform (.setVertex "a" "Robot" [])]).idsOf (some "Person") = ["a"] := by
  decide

end Store

end PropertyGraph
