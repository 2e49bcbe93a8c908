import PropertyGraph.Proofs.Paths
import PropertyGraph.Proofs.TypeIndex

namespace PropertyGraph

namespace Store

variable {s : Store}

theorem mem_types {type : String} : type ∈ s.types ↔ ∃ id, id ∈ s.idsOf (some type) := by
  simp only [types, List.mem_map, List.mem_filter, Bool.not_eq_true', OrderedSet.isEmpty,
    List.isEmpty_eq_false_iff_exists_mem, mem_idsOf_some]
  constructor
  · rintro ⟨⟨_, bucket⟩, ⟨hb, id, hid⟩, rfl⟩
    exact ⟨id, bucket, OrderedMap.mem_entries_iff.mp hb, hid⟩
  · rintro ⟨id, bucket, hb, hid⟩
    exact ⟨(type, bucket), ⟨OrderedMap.mem_entries_iff.mpr hb, id, hid⟩, rfl⟩

theorem nodup_types (s : Store) : s.types.Nodup :=
  s.typeIndex.nodup.sublist (List.filter_sublist.map Prod.fst)

/-- No bucket holds a vertex of another type, so those that hold one name the types in use. -/
theorem Indexed.mem_types_iff (h : s.Indexed) {type : String} :
    type ∈ s.types ↔ ∃ v ∈ s.vertices.values, v.type = type := by
  simp only [mem_types, h type, List.mem_filter, decide_eq_true_eq, vertexType?,
    Option.map_eq_some_iff]
  constructor
  · rintro ⟨id, _, v, hv, rfl⟩
    exact ⟨v, s.vertices.mem_values_iff.mpr ⟨id, hv⟩, rfl⟩
  · rintro ⟨v, hm, rfl⟩
    obtain ⟨id, hv⟩ := s.vertices.mem_values_iff.mp hm
    exact ⟨id, mem_keys_of_vertex? hv, v, hv, rfl⟩

end Store

namespace Workspace

variable {w : Workspace} {g : GraphId}

/-- The vertices of a type, or all, come as their records in the order of their ids. -/
theorem delivers_vertices (w : Workspace) (g : GraphId) (type : Option String) :
    (Cursor.ofVertices w g type).Delivers w
      ((((w.store g).idsOf type).filterMap (w.store g).vertex?).map .record) := by
  rw [List.map_filterMap]
  exact Cursor.delivers_of_yields (Seq.yields_ofList w _)

/-- The instances of a model stand for the vertices of its type. -/
theorem delivers_model (w : Workspace) (r : RegistryId) (m : Model) :
    (Cursor.ofModel w r m none).Delivers w
      ((((w.store (w.graphOf r)).idsOf (some m.type)).filterMap (w.store (w.graphOf r)).vertex?).map
        (fun v => .viewed ⟨r, v.id, m⟩)) := by
  -- A vertex is looked up when it is pulled; the instance that is shown needs its id alone.
  have hshow : View.show? w (.typed r m) ∘ Vertex.id =
      fun v => some (Item.viewed ⟨r, v.id, m⟩) := rfl
  have hdelivers : (Cursor.ofModel w r m none).Delivers w _ :=
    Cursor.delivers_of_yields (w.present_yields (w.graphOf r) (some m.type))
  rw [List.filterMap_map, hshow, List.filterMap_eq_map'] at hdelivers
  exact hdelivers

/-- While no call gives a present vertex another type, the index finds what a scan of the records
finds, in the same order: the vertices of a type, the types that there are, and the instances of
a model. -/
theorem index_finds_what_a_scan_finds {calls : List Call} (hs : w.store g = Store.empty.run calls)
    (hk : Store.empty.keepsTypes calls = true) :
    let all := (w.store g).vertices.values
    (Cursor.ofVertices w g none).Delivers w (all.map .record) ∧
    (∀ type, (Cursor.ofVertices w g (some type)).Delivers w
      ((all.filter (fun v => v.type = type)).map .record)) ∧
    (w.store g).types.Nodup ∧
    (∀ type, type ∈ (w.store g).types ↔ ∃ v ∈ all, v.type = type) ∧
    ∀ r m, w.graphOf r = g → (Cursor.ofModel w r m none).Delivers w
      ((all.filter (fun v => v.type = m.type)).map (fun v => .viewed ⟨r, v.id, m⟩)) := by
  intro all
  have hindexed : (w.store g).Indexed :=
    hs ▸ Store.indexed_empty.run Store.wellFormed_empty hk
  have hscan : ((w.store g).idsOf none).filterMap (w.store g).vertex? = all :=
    OrderedMap.filterMap_keys _
  refine ⟨?_, fun type => ?_, Store.nodup_types _, fun type => hindexed.mem_types_iff, ?_⟩
  · rw [← hscan]
    exact delivers_vertices w g none
  · rw [← hindexed.filterMap_idsOf]
    exact delivers_vertices w g (some type)
  · rintro r m rfl
    rw [← hindexed.filterMap_idsOf]
    exact delivers_model w r m

/-- A vertex that was removed and comes back under another type stands behind those that stayed,
and nothing is left of its old type. -/
theorem recreated_vertex_comes_last :
    let calls : List Call := [.perform (.setVertex "a" "Person" []),
      .perform (.setVertex "b" "Robot" []), .perform (.setEdge ⟨"a", "b", "builds"⟩),
      .perform (.removeVertex "a"), .apply (.createNode ⟨"a", "Robot", []⟩),
      .perform (.setVertex "c" "Place" [])]
    let w := Workspace.mk [⟨Store.empty.run calls, []⟩] [] [⟨0, .empty, .uuid, 0⟩] countedUuid
    let robot := Model.ofType "Robot"
    Store.empty.keepsTypes calls = true
      ∧ (Cursor.ofVertices w 0 (some "Robot")).Delivers w
        [.record ⟨"b", "Robot", []⟩, .record ⟨"a", "Robot", []⟩]
      ∧ "Person" ∉ (w.store 0).types
      ∧ (Cursor.ofModel w 0 robot none).Delivers w
        [.viewed ⟨0, "b", robot⟩, .viewed ⟨0, "a", robot⟩] := by
  intro calls w robot
  have hs : w.store 0 = Store.empty.run calls := rfl
  have hk : Store.empty.keepsTypes calls = true := by decide
  obtain ⟨_, hrecords, _, htypes, hinstances⟩ := index_finds_what_a_scan_finds hs hk
  exact ⟨hk, hrecords "Robot", mt (htypes "Person").mp (by decide), hinstances 0 robot rfl⟩

end Workspace

end PropertyGraph
