import Mathlib.Data.Finset.Card
import PropertyGraph.Proofs.Effect
import PropertyGraph.Store.Snapshot

namespace PropertyGraph

/-- A graph as two plain sets: the ids of its vertices, and its edges. -/
@[ext]
structure Outline where
  live : Finset VertexId
  edges : Finset Edge

/-- What a mutation answers, with the edges that it reports as a set. -/
inductive Answer where
  | done
  | removed (edges : Finset Edge)
  | changed (b : Bool)

def Reply.answer : Reply → Answer
  | done => .done
  | removed edges => .removed edges.toFinset
  | changed b => .changed b

namespace Outline

def empty : Outline := ⟨∅, ∅⟩

/-- Performs a mutation on the sets. -/
def perform (o : Outline) : Mutation → Except Error (Outline × Answer)
  | .setVertex id _ _ => .ok (⟨insert id o.live, o.edges⟩, .done)
  | .setProperty id key _ =>
    if key ∈ reservedKeys then .error (.reservedKey key)
    else if id ∈ o.live then .ok (o, .done)
    else .error (.missingVertex id)
  | .removeVertex id =>
    if id ∈ o.live then
      .ok (⟨o.live.erase id, o.edges.filter (fun e => e.origin ≠ id ∧ e.target ≠ id)⟩,
        .removed (o.edges.filter (fun e => e.origin = id ∨ e.target = id)))
    else .error (.missingVertex id)
  | .setEdge e =>
    if e.origin ∉ o.live then .error (.missingVertex e.origin)
    else if e.target ∉ o.live then .error (.missingVertex e.target)
    else .ok (⟨o.live, insert e o.edges⟩, .changed (e ∉ o.edges))
  | .removeEdge e => .ok (⟨o.live, o.edges.erase e⟩, .changed (e ∈ o.edges))

/-- The sets behind a mutation. One that fails leaves them as they were. -/
def after (o : Outline) (m : Mutation) : Outline :=
  match o.perform m with
  | .ok (next, _) => next
  | .error _ => o

def run (o : Outline) (ms : List Mutation) : Outline := ms.foldl after o

end Outline

namespace Store

variable {s : Store} {e : Edge} {id : VertexId}

/-- All edges, vertex by vertex. -/
def edgeList (s : Store) : List Edge := s.vertices.keys.flatMap s.outEdges

def outline (s : Store) : Outline := ⟨s.vertices.keys.toFinset, s.edgeList.toFinset⟩

theorem mem_outline_live : id ∈ s.outline.live ↔ id ∈ s.vertices.keys := List.mem_toFinset

/-- The outline has all edges, if all leave vertices. -/
theorem mem_outline_edges_of_ends (h : s.hasEdge e = true → e.origin ∈ s.vertices.keys) :
    e ∈ s.outline.edges ↔ s.hasEdge e = true := by
  simp only [outline, List.mem_toFinset, edgeList, List.mem_flatMap, mem_outEdges]
  constructor
  · rintro ⟨_, _, he, _⟩
    exact he
  · intro he
    exact ⟨e.origin, h he, he, rfl⟩

theorem WellFormed.mem_outline_edges (h : s.WellFormed) :
    e ∈ s.outline.edges ↔ s.hasEdge e = true :=
  mem_outline_edges_of_ends (fun he => (h.ends he).1)

theorem WellFormed.nodup_edgeList (h : s.WellFormed) : s.edgeList.Nodup := by
  refine List.nodup_flatMap.mpr ⟨fun id _ => h.mirrored.nodup_outEdges id, ?_⟩
  refine s.vertices.keys_nodup.imp ?_
  intro a b hne e ha hb
  exact hne ((mem_outEdges.mp ha).2.symm.trans (mem_outEdges.mp hb).2)

theorem WellFormed.outline_stored (h : s.WellFormed) {v : Vertex} (hv : v.Clean) :
    (s.stored v).outline = ⟨insert v.id s.outline.live, s.outline.edges⟩ := by
  ext x
  · simp [mem_outline_live, Store.stored, OrderedMap.mem_keys_insert]
  · rw [(h.stored hv).mem_outline_edges, h.hasEdge_stored, h.mem_outline_edges]

theorem WellFormed.outline_without (h : s.WellFormed) (id : VertexId) (type : String) :
    (s.without id type).outline =
      ⟨s.outline.live.erase id,
        s.outline.edges.filter (fun e => e.origin ≠ id ∧ e.target ≠ id)⟩ := by
  ext x
  · simp [mem_outline_live, Store.without, OrderedMap.keys_erase, and_comm]
  · rw [(h.without id type).mem_outline_edges, hasEdge_without]
    simp [h.mem_outline_edges, avoids]

theorem WellFormed.outline_linked (h : s.WellFormed) (ho : e.origin ∈ s.vertices.keys)
    (ht : e.target ∈ s.vertices.keys) (hn : s.hasEdge e = false) :
    (s.linked e).outline = ⟨s.outline.live, insert e s.outline.edges⟩ := by
  ext x
  · rfl
  · rw [(h.linked ho ht hn).mem_outline_edges, hasEdge_linked]
    simp [h.mem_outline_edges, or_comm]

theorem WellFormed.outline_restrict (h : s.WellFormed) (keep : Edge → Bool) :
    (s.restrict keep).outline =
      ⟨s.outline.live, s.outline.edges.filter (fun e => keep e = true)⟩ := by
  ext x
  · rfl
  · rw [(h.restrict keep).mem_outline_edges, hasEdge_restrict]
    simp [h.mem_outline_edges]

theorem WellFormed.answer_incidentEdges (h : s.WellFormed) (id : VertexId) :
    (s.incidentEdges id).toFinset =
      s.outline.edges.filter (fun e => e.origin = id ∨ e.target = id) := by
  ext e
  rw [List.mem_toFinset, h.mirrored.mem_incidentEdges, Finset.mem_filter, h.mem_outline_edges]

/-- A mutation does to the sets of a store what it does to plain sets, and answers the same. -/
theorem WellFormed.perform_outline (h : s.WellFormed) (m : Mutation) :
    (s.perform m).map (fun o => (o.store.outline, o.reply.answer)) = s.outline.perform m := by
  have hnone : ∀ {id}, s.vertex? id = none → id ∉ s.outline.live := by
    intro id hn
    rw [mem_outline_live]
    exact vertex?_eq_none.mp hn
  have hsome : ∀ {id v}, s.vertex? id = some v → id ∈ s.outline.live := by
    intro id v hv
    rw [mem_outline_live]
    exact mem_keys_of_vertex? hv
  cases m with
  | setVertex id type properties =>
    have ho := h.outline_stored (Vertex.clean_cleaned id type properties)
    cases hv : s.vertex? id with
    | none =>
      rw [perform_setVertex_absent hv]
      simp only [Except.map, ho]
      rfl
    | some v =>
      rw [perform_setVertex_present hv]
      simp only [Except.map, ho]
      rfl
  | setProperty id key value =>
    by_cases hk : key ∈ reservedKeys
    · rw [perform_setProperty_reserved s id hk, Outline.perform, if_pos hk]
      rfl
    · cases hv : s.vertex? id with
      | none =>
        rw [perform_setProperty_absent hv hk, Outline.perform, if_neg hk, if_neg (hnone hv)]
        rfl
      | some v =>
        have hid : (v.written key value).id = id := h.own_id id v hv
        have ho := h.outline_stored ((h.clean id v hv).written hk value)
        rw [hid, Finset.insert_eq_of_mem (hsome hv)] at ho
        rw [h.perform_setProperty_present hv hk, Outline.perform, if_neg hk, if_pos (hsome hv)]
        simp only [Except.map, ho]
        rfl
  | removeVertex id =>
    cases hv : s.vertex? id with
    | none =>
      rw [perform_removeVertex_absent hv, Outline.perform, if_neg (hnone hv)]
      rfl
    | some v =>
      rw [h.perform_removeVertex_present hv, Outline.perform, if_pos (hsome hv)]
      simp only [Except.map, h.outline_without, Reply.answer, h.answer_incidentEdges]
  | setEdge e =>
    by_cases ho : e.origin ∈ s.outline.live
    · by_cases ht : e.target ∈ s.outline.live
      · rw [h.perform_setEdge (mem_outline_live.mp ho) (mem_outline_live.mp ht), Outline.perform,
          if_neg (not_not.mpr ho), if_neg (not_not.mpr ht)]
        by_cases he : e ∈ s.outline.edges
        · rw [if_pos (h.mem_outline_edges.mp he), Finset.insert_eq_of_mem he]
          simp only [Except.map, Reply.answer, he, not_true_eq_false, decide_false]
        · have hn : s.hasEdge e = false := by simpa [h.mem_outline_edges] using he
          rw [if_neg (by simpa using hn)]
          simp only [Except.map, Reply.answer, he, not_false_eq_true, decide_true,
            h.outline_linked (mem_outline_live.mp ho) (mem_outline_live.mp ht) hn]
      · have hn : e.target ∉ s.vertices.keys := fun hm => ht (mem_outline_live.mpr hm)
        rw [perform_setEdge_noTarget (mem_outline_live.mp ho) hn, Outline.perform,
          if_neg (not_not.mpr ho), if_pos ht]
        rfl
    · rw [perform_setEdge_noOrigin (fun hm => ho (mem_outline_live.mpr hm)), Outline.perform,
        if_pos ho]
      rfl
  | removeEdge e =>
    rw [h.perform_removeEdge, Outline.perform]
    by_cases he : e ∈ s.outline.edges
    · rw [if_pos (h.mem_outline_edges.mp he), ← Finset.filter_ne']
      simp only [Except.map, Reply.answer, he, decide_true, h.outline_restrict, decide_eq_true_eq]
    · rw [if_neg (fun hm => he (h.mem_outline_edges.mpr hm)), Finset.erase_eq_of_notMem he]
      simp only [Except.map, Reply.answer, he, decide_false]

theorem WellFormed.outline_after (h : s.WellFormed) (m : Mutation) :
    (s.after (.perform m)).outline = s.outline.after m := by
  rw [after_perform, Outline.after, ← h.perform_outline]
  cases s.perform m <;> rfl

theorem WellFormed.outline_run (h : s.WellFormed) (ms : List Mutation) :
    (s.run (ms.map .perform)).outline = s.outline.run ms := by
  unfold Store.run Outline.run
  induction ms generalizing s with
  | nil => rfl
  | cons m rest ih =>
    simp only [List.map_cons, List.foldl_cons]
    rw [ih (h.after (.perform m)), h.outline_after]

theorem interEdges_eq (s : Store) (a b : VertexId) :
    s.interEdges a b = ((s.outgoingOf a).types b).map (fun t => ⟨a, b, t⟩) := rfl

theorem mem_interEdges {a b : VertexId} :
    e ∈ s.interEdges a b ↔ s.hasEdge e = true ∧ e.origin = a ∧ e.target = b := by
  rw [interEdges_eq, List.mem_map, hasEdge_iff]
  constructor
  · rintro ⟨t, ht, rfl⟩
    exact ⟨ht, rfl, rfl⟩
  · rintro ⟨ht, rfl, rfl⟩
    exact ⟨e.type, ht, rfl⟩

theorem Mirrored.nodup_interEdges (h : s.Mirrored) (a b : VertexId) :
    (s.interEdges a b).Nodup := by
  rw [interEdges_eq]
  refine ((h.outgoing a).nodup b).map ?_
  intro t u htu
  simpa using htu

/-- The counter adds up the type lists of the outgoing side, which list each edge once. -/
theorem WellFormed.edgeCount_eq_card (h : s.WellFormed) :
    s.edgeCount = s.outline.edges.card := by
  have hentry : ∀ n ∈ s.outgoing.entries,
      (s.outEdges n.1).length = (n.2.values.map List.length).sum := by
    intro n hn
    have hg : s.outgoing.get? n.1 = some n.2 := OrderedMap.mem_entries_iff.mp hn
    rw [outEdges, outgoingOf, hg, Option.getD_some, OrderedMap.values, List.length_flatMap,
      List.map_map]
    simp [Function.comp_def]
  calc s.edgeCount
      = (s.outgoing.entries.map (fun n => (n.2.values.map List.length).sum)).sum := by
        rw [edgeCount, List.length_flatten, List.map_flatMap, List.flatMap_def, List.sum_flatten,
          OrderedMap.values, List.map_map, List.map_map]
        rfl
    _ = (s.outgoing.entries.map (fun n => (s.outEdges n.1).length)).sum := by
        rw [List.map_congr_left hentry]
    _ = s.edgeList.length := by
        rw [edgeList, ← h.outgoing_keys, OrderedMap.keys, List.flatMap_map, List.length_flatMap]
    _ = s.outline.edges.card := (List.toFinset_card_of_nodup h.nodup_edgeList).symm

/-- A store that mutations built from the empty one answers the next mutation as plain sets of
ids and edges do, and its readers list the edges of the set, each where it belongs and once. -/
theorem run_behaves_as_sets (ms : List Mutation) :
    let s := Store.empty.run (ms.map .perform)
    let o := Outline.empty.run ms
    (∀ m, (s.perform m).map (fun out => (out.store.outline, out.reply.answer)) = o.perform m) ∧
    (∀ id, s.hasVertex id = true ↔ id ∈ o.live) ∧
    (∀ e, s.hasEdge e = true ↔ e ∈ o.edges) ∧
    (∀ a, (s.outEdges a).Nodup ∧ ∀ e, e ∈ s.outEdges a ↔ e ∈ o.edges ∧ e.origin = a) ∧
    (∀ b, (s.inEdges b).Nodup ∧ ∀ e, e ∈ s.inEdges b ↔ e ∈ o.edges ∧ e.target = b) ∧
    (∀ a b, (s.interEdges a b).Nodup ∧
      ∀ e, e ∈ s.interEdges a b ↔ e ∈ o.edges ∧ e.origin = a ∧ e.target = b) ∧
    (∀ a, s.allEdges a = s.inEdges a ++ s.outEdges a) ∧
    (∀ e ∈ o.edges, ∀ a, (s.allEdges a).count e =
      (if e.target = a then 1 else 0) + (if e.origin = a then 1 else 0)) ∧
    s.edgeCount = o.edges.card ∧ s.snapshot.edgeCount = o.edges.card := by
  intro s o
  have h : s.WellFormed := wellFormed_empty.run (ms.map .perform)
  have ho : s.outline = o := wellFormed_empty.outline_run ms
  have he : ∀ e, s.hasEdge e = true ↔ e ∈ o.edges := by
    intro e
    rw [← ho, h.mem_outline_edges]
  refine ⟨?_, ?_, he, ?_, ?_, ?_, fun _ => rfl, ?_, ?_, ?_⟩
  · intro m
    rw [h.perform_outline, ho]
  · intro id
    rw [hasVertex_iff, ← mem_outline_live, ho]
  · intro a
    refine ⟨h.mirrored.nodup_outEdges a, ?_⟩
    intro e
    rw [mem_outEdges, he]
  · intro b
    refine ⟨h.mirrored.nodup_inEdges b, ?_⟩
    intro e
    rw [h.mirrored.mem_inEdges, he]
  · intro a b
    refine ⟨h.mirrored.nodup_interEdges a b, ?_⟩
    intro e
    rw [mem_interEdges, he]
  · intro e hm a
    rw [allEdges, List.count_append, (h.mirrored.nodup_inEdges a).count,
      (h.mirrored.nodup_outEdges a).count]
    simp only [mem_outEdges, h.mirrored.mem_inEdges, (he e).mpr hm, true_and]
  · rw [← ho, h.edgeCount_eq_card]
  · rw [← ho, ← h.edgeCount_eq_card]
    rfl

end Store

end PropertyGraph
