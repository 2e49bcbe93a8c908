import PropertyGraph.Proofs.Outlined
import PropertyGraph.Proofs.Restored
import PropertyGraph.Workspace.Run

namespace PropertyGraph

namespace OrderedSet

variable {α : Type} [DecidableEq α]

theorem elems_insert (s : OrderedSet α) (a : α) :
    (s.insert a).elems = if a ∈ s.elems then s.elems else s.elems ++ [a] := by
  unfold insert
  split <;> rfl

end OrderedSet

namespace Store

variable {s : Store} {v : Vertex}

theorem idsOf_stored (s : Store) (v : Vertex) (type : String) :
    (s.stored v).idsOf (some type) =
      if type = v.type ∧ v.id ∉ s.idsOf (some type) then s.idsOf (some type) ++ [v.id]
      else s.idsOf (some type) := by
  simp only [idsOf, stored, filing, OrderedMap.get?_insert]
  by_cases ht : type = v.type
  · rw [if_pos ht, Option.getD_some, OrderedSet.elems_insert, ht]
    by_cases hm : v.id ∈ ((s.typeIndex.get? v.type).getD .empty).elems <;> simp [hm]
  · simp [ht]

theorem vertexCount_stored (s : Store) (v : Vertex) :
    (s.stored v).vertexCount = s.vertexCount + if s.hasVertex v.id then 0 else 1 := by
  have hsize : ∀ m : OrderedMap VertexId Vertex, m.size = m.keys.length := by
    intro m
    rw [OrderedMap.size, OrderedMap.keys, List.length_map]
  rw [vertexCount, vertexCount, hsize, hsize, stored]
  by_cases hp : s.hasVertex v.id = true
  · rw [if_pos hp, OrderedMap.keys_insert_of_mem (hasVertex_iff.mp hp), Nat.add_zero]
  · rw [if_neg hp, OrderedMap.keys_insert_of_not_mem (fun hm => hp (hasVertex_iff.mpr hm)),
      List.length_append, List.length_singleton]

theorem Keyed.outEdges_stored (h : s.Keyed) (v : Vertex) (id : VertexId) :
    (s.stored v).outEdges id = s.outEdges id := by
  have ho : (s.stored v).outgoingOf id = s.outgoingOf id :=
    getD_opened (fun x => (h.outgoing x).mp) v.id id
  rw [outEdges, outEdges, ho]

theorem Keyed.inEdges_stored (h : s.Keyed) (v : Vertex) (id : VertexId) :
    (s.stored v).inEdges id = s.inEdges id := by
  have hi : (s.stored v).incomingOf id = s.incomingOf id :=
    getD_opened (fun x => (h.incoming x).mp) v.id id
  rw [inEdges, inEdges, hi]

end Store

namespace Workspace

variable {w : Workspace} {g : GraphId} {r : RegistryId} {event : Event} {stem : String}

theorem mint_sequential (hr : (w.registry r).strategy = .sequential stem) :
    w.mint r = (w.withRegistry r ⟨w.graphOf r, (w.registry r).models, .sequential stem,
      (w.registry r).minted + 1⟩, stem ++ toString ((w.registry r).minted + 1)) := by
  rw [mint, hr]
  rfl

/-- Behind the last number of 64 bits the count begins anew. -/
example : let last : Registry := ⟨0, .empty, .sequential "v", 0xffffffffffffffff⟩
    ((Workspace.mk [] [] [last] countedUuid).mint 0).2 = "v0" := by
  decide

/-- Making a vertex is writing the record of its id, whether or not there is one. -/
theorem create_minted (hg : w.graphOf r < w.graphs.length) (m : Model) (properties : Properties) :
    let id := (w.mint r).2
    (w.create r m properties).2 = ⟨r, id, m⟩ ∧
    (w.create r m properties).1.store (w.graphOf r) =
      (w.store (w.graphOf r)).stored (.cleaned id m.type properties) := by
  intro id
  have hstore : (w.mint r).1.store (w.graphOf r) = w.store (w.graphOf r) := by
    rw [store, graphs_mint, ← store]
  obtain ⟨event, he, hp⟩ := (w.store (w.graphOf r)).perform_setVertex id m.type properties
  rw [create]
  dsimp only
  rw [graphOf_mint, Workspace.perform, hstore, hp]
  refine ⟨rfl, ?_⟩
  dsimp only [settle]
  rw [store, graphs_announce he, ← store]
  exact store_withStore (graphs_mint w r ▸ hg) _

theorem create_sequential (hr : (w.registry r).strategy = .sequential stem)
    (hg : w.graphOf r < w.graphs.length) (m : Model) (properties : Properties) :
    let id := stem ++ toString ((w.registry r).minted + 1)
    (w.create r m properties).2 = ⟨r, id, m⟩ ∧
    (w.create r m properties).1.store (w.graphOf r) =
      (w.store (w.graphOf r)).stored (.cleaned id m.type properties) := by
  have hid : (w.mint r).2 = stem ++ toString ((w.registry r).minted + 1) := by
    rw [mint_sequential hr]
  rw [← hid]
  exact create_minted hg m properties

/-- Making a vertex with a counted id leaves all edges, all other vertices and all buckets as they
are, but for the id in the bucket of its type. The vertex is new, and there is one more than
before, exactly if the id was free; else the vertex that had it is replaced. -/
theorem create_adds_vertex_iff_id_free (hr : (w.registry r).strategy = .sequential stem)
    (hg : w.graphOf r < w.graphs.length) (hs : (w.store (w.graphOf r)).Attained) (m : Model)
    (properties : Properties) :
    let s := w.store (w.graphOf r)
    let created := w.create r m properties
    let t := created.1.store (w.graphOf r)
    let id := stem ++ toString ((w.registry r).minted + 1)
    created.2 = ⟨r, id, m⟩ ∧
    t.vertex? id = some (.cleaned id m.type properties) ∧
    (∀ x, x ≠ id → t.vertex? x = s.vertex? x) ∧
    (∀ x, t.outEdges x = s.outEdges x ∧ t.inEdges x = s.inEdges x) ∧
    (∀ type, t.idsOf (some type) =
      if type = m.type ∧ id ∉ s.idsOf (some type) then s.idsOf (some type) ++ [id]
      else s.idsOf (some type)) ∧
    (s.hasVertex id = false ↔ t.vertexCount = s.vertexCount + 1) ∧
    (s.hasVertex id = true ↔ t.vertexCount = s.vertexCount) := by
  intro s created t id
  obtain ⟨hi, ht⟩ : created.2 = ⟨r, id, m⟩ ∧ t = s.stored (.cleaned id m.type properties) :=
    create_sequential hr hg m properties
  have hkeyed : s.Keyed := hs.keyed
  have hcount : t.vertexCount = s.vertexCount + if s.hasVertex id then 0 else 1 := by
    rw [ht]
    exact s.vertexCount_stored _
  refine ⟨hi, ?_, ?_, ?_, ?_, ?_, ?_⟩
  · rw [ht]
    exact s.vertex?_stored_self _
  · intro x hx
    rw [ht, Store.vertex?_stored]
    exact if_neg hx
  · intro x
    rw [ht]
    exact ⟨hkeyed.outEdges_stored _ x, hkeyed.inEdges_stored _ x⟩
  · intro type
    rw [ht]
    exact s.idsOf_stored _ type
  · rw [hcount]
    cases s.hasVertex id <;> simp
  · rw [hcount]
    cases s.hasVertex id <;> simp

/-- A restored vertex has the second id that the registry would give. The first is free. -/
theorem first_id_is_free_beside_second :
    let v : Vertex := ⟨"v2", "Person", []⟩
    let snapshot : Snapshot := ⟨.ofList [("v2", v)], .empty, .empty,
      .ofList [("Person", .ofList ["v2"])]⟩
    let w := Workspace.mk [⟨snapshot.store, []⟩] [] [⟨0, .empty, .sequential "v", 0⟩] countedUuid
    (w.registry 0).strategy = .sequential "v" ∧ w.graphOf 0 < w.graphs.length ∧
      (w.store (w.graphOf 0)).Attained ∧
      ((w.create 0 (.ofType "Person") []).1.store 0).vertexCount = 2 := by
  intro v snapshot w
  have hr : (w.registry 0).strategy = .sequential "v" := rfl
  have hs : (w.store (w.graphOf 0)).Attained := .restored snapshot snapshot.store rfl
  obtain ⟨_, _, _, _, _, hcount, _⟩ :=
    create_adds_vertex_iff_id_free hr (by decide) hs (.ofType "Person") []
  exact ⟨hr, by decide, hs, hcount.mp (by decide)⟩

/-- A vertex was written under the id that the registry gives first. Making a person replaces
it. -/
theorem taken_id_is_given_again :
    let s := Store.empty.after (.perform (.setVertex "v1" "Robot" []))
    let w := Workspace.mk [⟨s, []⟩] [] [⟨0, .empty, .sequential "v", 0⟩] countedUuid
    let created := w.create 0 (.ofType "Person") []
    (w.store 0).Attained ∧ (w.registry 0).strategy = .sequential "v" ∧
      created.2.id = "v1" ∧ (w.store 0).hasVertex created.2.id = true ∧
      (created.1.store 0).vertexCount = (w.store 0).vertexCount ∧
      (w.store 0).vertexType? "v1" = some "Robot" ∧
      (created.1.store 0).vertexType? "v1" = some "Person" := by
  intro s w created
  have hs : (w.store 0).Attained := .called .empty (.perform (.setVertex "v1" "Robot" [])) .empty
  exact ⟨hs, rfl, by decide, by decide, by decide, by decide, by decide⟩

end Workspace

end PropertyGraph
