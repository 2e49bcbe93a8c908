import PropertyGraph.Proofs.Creation
import PropertyGraph.Proofs.Reachable

namespace PropertyGraph.Store

variable {s : Store} {m : Mutation} {o : Outcome} {v : Vertex}

/-- Each bucket lists the vertices of its type, in the order of the records. -/
def Indexed (s : Store) : Prop :=
  ∀ type, s.idsOf (some type) =
    s.vertices.keys.filter (fun id => decide (s.vertexType? id = some type))

theorem indexed_empty : empty.Indexed := fun _ => rfl

theorem vertexType?_stored (s : Store) (v : Vertex) (id : VertexId) :
    (s.stored v).vertexType? id = if id = v.id then some v.type else s.vertexType? id := by
  rw [vertexType?, vertex?_stored]
  split <;> rfl

theorem vertexType?_without (s : Store) (id x : VertexId) (type : String) :
    (s.without id type).vertexType? x = if x = id then none else s.vertexType? x := by
  rw [vertexType?, vertex?_without]
  split <;> rfl

/-- A new vertex goes to the end of the records and to the end of its bucket. -/
theorem Indexed.created (h : s.Indexed) (hn : v.id ∉ s.vertices.keys) : (s.stored v).Indexed := by
  intro type
  have hkeys : (s.stored v).vertices.keys = s.vertices.keys ++ [v.id] :=
    OrderedMap.keys_insert_of_not_mem hn v
  have hold : s.vertices.keys.filter (fun id => decide ((s.stored v).vertexType? id = some type)) =
      s.idsOf (some type) := by
    rw [h type]
    refine List.filter_congr (fun id hid => ?_)
    have hne : id ≠ v.id := fun he => hn (he ▸ hid)
    rw [vertexType?_stored, if_neg hne]
  have hfresh : v.id ∉ s.idsOf (some type) := by
    rw [h type]
    exact fun hm => hn (List.mem_filter.mp hm).1
  rw [hkeys, List.filter_append, hold, idsOf_stored]
  by_cases ht : type = v.type
  · simp [ht, vertexType?_stored, ht ▸ hfresh]
  · simp [ht, vertexType?_stored, Ne.symm ht]

/-- A record that is written anew keeps its place, and its bucket if it keeps its type. -/
theorem Indexed.updated (h : s.Indexed) {previous : Vertex}
    (hv : s.vertex? v.id = some previous) (ht : previous.type = v.type) :
    (s.stored v).Indexed := by
  intro type
  have hkeys : (s.stored v).vertices.keys = s.vertices.keys :=
    OrderedMap.keys_insert_of_mem (mem_keys_of_vertex? hv) v
  -- Neither the keys nor the types behind them change, so the view of the records is the same.
  have htype : (s.stored v).vertexType? = s.vertexType? := by
    funext id
    rw [vertexType?_stored]
    split
    · next he => rw [he, vertexType?, hv, Option.map_some, ht]
    · rfl
  have hin : v.id ∈ s.idsOf (some v.type) := by
    rw [h, List.mem_filter]
    exact ⟨mem_keys_of_vertex? hv, by simp [vertexType?, hv, ht]⟩
  rw [hkeys, htype, ← h type, idsOf_stored, if_neg]
  rintro ⟨rfl, hout⟩
  exact hout hin

theorem Indexed.removed (h : s.Indexed) (hv : s.vertex? v.id = some v) :
    (s.without v.id v.type).Indexed := by
  intro type
  have hkeys : (s.without v.id v.type).vertices.keys =
      s.vertices.keys.filter (fun id => decide (id ≠ v.id)) := s.vertices.keys_erase v.id
  have hids : (s.without v.id v.type).idsOf (some type) =
      (s.idsOf (some type)).filter (fun id => decide (id ≠ v.id)) := by
    rw [idsOf_without]
    split
    · rfl
    · next ht =>
      rw [eq_comm, List.filter_eq_self]
      intro id hm
      rw [h type, List.mem_filter] at hm
      refine decide_eq_true (fun he => ht ?_)
      simpa [he, vertexType?, hv, eq_comm] using hm.2
  rw [hids, hkeys, h type, List.filter_filter, List.filter_filter]
  refine List.filter_congr (fun id _ => ?_)
  rw [vertexType?_without]
  by_cases he : id = v.id <;> simp [he]

theorem Effect.indexed (he : Effect s m o) (h : s.Indexed) (hk : s.keepsType m = true) :
    o.store.Indexed := by
  cases he with
  | created v _ absent => exact h.created (vertex?_eq_none.mp absent)
  | updated previous v _ found kept => exact h.updated found (kept hk)
  | removed v found => exact h.removed found
  | made e _ _ _ => exact h
  | deleted e _ => exact h
  | unchanged => exact h

theorem Indexed.run (hi : s.Indexed) (h : s.WellFormed) {calls : List Call}
    (hk : s.keepsTypes calls = true) : (s.run calls).Indexed :=
  h.run_keeps (fun he hk hi => he.indexed hi hk) hk hi

/-- The vertices of a bucket are the records of its type, in the order of the records. -/
theorem Indexed.filterMap_idsOf (h : s.Indexed) (type : String) :
    (s.idsOf (some type)).filterMap s.vertex? =
      s.vertices.values.filter (fun v => decide (v.type = type)) := by
  have hpick : ∀ id, (if s.vertexType? id = some type then s.vertex? id else none) =
      (s.vertex? id).filter (fun v => decide (v.type = type)) := by
    intro id
    rw [vertexType?]
    cases s.vertex? id <;> simp [Option.filter]
  calc (s.idsOf (some type)).filterMap s.vertex?
      = s.vertices.keys.filterMap
          (fun id => (s.vertex? id).filter (fun v => decide (v.type = type))) := by
        rw [h type, List.filterMap_filter]
        simp only [decide_eq_true_eq, hpick]
    _ = (s.vertices.keys.filterMap s.vertices.get?).filter (fun v => decide (v.type = type)) :=
        List.filter_filterMap.symm
    _ = s.vertices.values.filter (fun v => decide (v.type = type)) := by
        rw [OrderedMap.filterMap_keys]

end PropertyGraph.Store
