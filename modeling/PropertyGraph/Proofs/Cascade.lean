import PropertyGraph.Proofs.Reachable

namespace PropertyGraph

namespace Adjacency

variable {a : Adjacency}

/-- Where the condition only asks for another neighbour, one neighbour leaves with all its types
and the others stay as they are. -/
theorem Pruned.restrict_eq_erase (h : a.Pruned) {id : VertexId} {keep : VertexId → String → Bool}
    (hk : ∀ n t, keep n t = decide (n ≠ id)) : a.restrict keep = a.erase id := by
  have hkeys : (a.erase id).keys.Sublist a.keys := by
    rw [OrderedMap.keys_erase]
    exact List.filter_sublist
  refine OrderedMap.ext_sublist a.keys_nodup (keys_restrict_sublist a keep) hkeys ?_
  intro n
  rw [get?_restrict, OrderedMap.get?_erase]
  by_cases hn : n = id
  · rw [if_pos hn, List.filter_eq_nil_iff.mpr (by simp [hk, hn])]
    rfl
  · rw [if_neg hn, List.filter_eq_self.mpr (by simp [hk, hn]), h.get?_eq]

end Adjacency

namespace Store

variable {s : Store} {id : VertexId} {v : Vertex}

theorem entries_restrictSide (keep : VertexId → VertexId → String → Bool)
    (side : OrderedMap VertexId Adjacency) :
    (restrictSide keep side).entries =
      side.entries.map (fun e => (e.1, e.2.restrict (keep e.1))) := by
  simp [restrictSide, OrderedMap.filterMap, Entries.filterMap]

/-- One side of the adjacency after a vertex has gone: the other vertices in their order, each
with its other neighbours. -/
def detached (id : VertexId) (side : OrderedMap VertexId Adjacency) : List (VertexId × Adjacency) :=
  (side.entries.filter (fun e => e.1 ≠ id)).map (fun e => (e.1, e.2.erase id))

theorem entries_erase_restrictSide {side : OrderedMap VertexId Adjacency}
    (hp : ∀ i a, side.get? i = some a → a.Pruned) {keep : VertexId → VertexId → String → Bool}
    (hk : ∀ i, i ≠ id → ∀ n t, keep i n t = decide (n ≠ id)) :
    ((restrictSide keep side).erase id).entries = detached id side := by
  have hentries : ((restrictSide keep side).erase id).entries =
      (side.entries.filter (fun e => e.1 ≠ id)).map (fun e => (e.1, e.2.restrict (keep e.1))) := by
    simp only [OrderedMap.erase, Entries.erase, entries_restrictSide, List.filter_map]
    rfl
  rw [hentries, detached]
  -- The entry of the vertex itself goes as a whole, so the condition is asked of the others only.
  apply List.map_congr_left
  intro e he
  obtain ⟨hm, hne⟩ := List.mem_filter.mp he
  have hpruned : e.2.Pruned := hp e.1 e.2 (OrderedMap.mem_entries_iff.mp hm)
  rw [hpruned.restrict_eq_erase (hk e.1 (by simpa using hne))]

theorem Mirrored.outgoing_without (h : s.Mirrored) (id : VertexId) (type : String) :
    (s.without id type).outgoing.entries = detached id s.outgoing :=
  entries_erase_restrictSide (fun _ _ hg => h.outgoing_get? hg)
    (fun i hi n t => by simp [avoids, hi])

theorem Mirrored.incoming_without (h : s.Mirrored) (id : VertexId) (type : String) :
    (s.without id type).incoming.entries = detached id s.incoming :=
  entries_erase_restrictSide (fun _ _ hg => h.incoming_get? hg)
    (fun i hi n t => by simp [avoids, hi])

/-- A store in which nothing but a bucket of another type speaks of an id: no record, no entry
on either side, no neighbour there, and not the bucket of the given type. -/
structure Forgets (s : Store) (id : VertexId) (type : String) : Prop where
  records : ∀ x w, s.vertex? x = some w → x ≠ id ∧ w.id ≠ id
  outgoing : ∀ e ∈ s.outgoing.entries, e.1 ≠ id ∧ id ∉ e.2.keys
  incoming : ∀ e ∈ s.incoming.entries, e.1 ≠ id ∧ id ∉ e.2.keys
  bucket : id ∉ s.idsOf (some type)

theorem not_mentioned_of_detached {side : OrderedMap VertexId Adjacency} {e : VertexId × Adjacency}
    (he : e ∈ detached id side) : e.1 ≠ id ∧ id ∉ e.2.keys := by
  obtain ⟨f, hf, rfl⟩ := List.mem_map.mp he
  refine ⟨by simpa using (List.mem_filter.mp hf).2, ?_⟩
  simp [OrderedMap.keys_erase]

theorem WellFormed.forgets_without (h : s.WellFormed) (id : VertexId) (type : String) :
    (s.without id type).Forgets id type where
  records x w hw := by
    have hid : w.id = x := (h.without id type).own_id x w hw
    have hne : x ≠ id := by
      rintro rfl
      rw [vertex?_without, if_pos rfl] at hw
      cases hw
    exact ⟨hne, hid ▸ hne⟩
  outgoing e he := not_mentioned_of_detached (h.mirrored.outgoing_without id type ▸ he)
  incoming e he := not_mentioned_of_detached (h.mirrored.incoming_without id type ▸ he)
  bucket hm := (mem_idsOf_without.mp hm).2 ⟨rfl, rfl⟩

/-- In every store that calls build from the empty one, removing a vertex reports exactly its
edges, each once, and leaves the rest of the store as and where it was. -/
theorem removal_reports_the_incident_edges (calls : List Call) {id : VertexId} {v : Vertex}
    (hv : (Store.empty.run calls).vertex? id = some v) :
    let s := Store.empty.run calls
    let edges := s.outEdges id ++ (s.inEdges id).filter (fun e => e.origin ≠ id)
    edges.Nodup ∧
    (∀ e, e ∈ edges ↔ s.hasEdge e = true ∧ (e.origin = id ∨ e.target = id)) ∧
    ∃ t, s.perform (.removeVertex id) = .ok ⟨t, .removed edges, some (.deleteNode v edges)⟩
      ∧ t.Forgets id v.type
      ∧ t.vertices.entries = s.vertices.entries.filter (fun e => e.1 ≠ id)
      ∧ t.outgoing.entries = detached id s.outgoing
      ∧ t.incoming.entries = detached id s.incoming
      ∧ ∀ type, t.idsOf (some type) =
          if type = v.type then (s.idsOf (some type)).filter (fun x => x ≠ id)
          else s.idsOf (some type) := by
  intro s edges
  have h : s.WellFormed := wellFormed_empty.run calls
  refine ⟨h.mirrored.nodup_incidentEdges id, fun e => h.mirrored.mem_incidentEdges,
    s.without id v.type, h.perform_removeVertex_present hv, h.forgets_without id v.type, rfl,
    h.mirrored.outgoing_without id v.type, h.mirrored.incoming_without id v.type,
    s.idsOf_without id v.type⟩

/-- The removed vertex has a loop and two types of edges to one neighbour, whose edge to a third
stays. -/
theorem loop_is_reported_once :
    let calls : List Call := [.perform (.setVertex "a" "Person" []),
      .perform (.setVertex "b" "Person" []), .perform (.setVertex "c" "Place" []),
      .perform (.setEdge ⟨"b", "a", "knows"⟩), .perform (.setEdge ⟨"b", "c", "visits"⟩),
      .perform (.setEdge ⟨"a", "b", "knows"⟩), .perform (.setEdge ⟨"a", "a", "knows"⟩),
      .perform (.setEdge ⟨"a", "b", "likes"⟩)]
    let edges : List Edge := [⟨"a", "b", "knows"⟩, ⟨"a", "b", "likes"⟩, ⟨"a", "a", "knows"⟩,
      ⟨"b", "a", "knows"⟩]
    (Store.empty.run calls).vertex? "a" = some ⟨"a", "Person", []⟩ ∧
      ∃ t, (Store.empty.run calls).perform (.removeVertex "a") =
          .ok ⟨t, .removed edges, some (.deleteNode ⟨"a", "Person", []⟩ edges)⟩
        ∧ t.Forgets "a" "Person" ∧ t.outEdges "b" = [⟨"b", "c", "visits"⟩]
        ∧ t.idsOf (some "Person") = ["b"] := by
  intro calls edges
  have hv : (Store.empty.run calls).vertex? "a" = some ⟨"a", "Person", []⟩ := rfl
  obtain ⟨_, _, t, ht, hforgets, _, hout, _, hbuckets⟩ :=
    removal_reports_the_incident_edges calls hv
  refine ⟨hv, t, ht, hforgets, ?_, hbuckets "Person"⟩
  rw [outEdges, outgoingOf, OrderedMap.get?, hout]
  rfl

end Store

end PropertyGraph
