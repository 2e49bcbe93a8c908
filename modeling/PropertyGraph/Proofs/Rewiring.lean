import PropertyGraph.Proofs.Reaction
import PropertyGraph.Proofs.Wired
import PropertyGraph.Workspace.Connection

namespace PropertyGraph

namespace Store

variable {s t : Store} {edges : Finset Edge} {e : Edge} {id : VertexId}

theorem Wired.mem_outline_edges (h : s.Wired) : e ∈ s.outline.edges ↔ s.hasEdge e = true :=
  mem_outline_edges_of_ends (fun he => (h.ends he).1)

/-- The id and the type that the record of a vertex has. -/
def label? (s : Store) (id : VertexId) : Option (VertexId × String) :=
  (s.vertex? id).map (fun v => (v.id, v.type))

theorem mem_keys_iff_label? : id ∈ s.vertices.keys ↔ (s.label? id).isSome = true := by
  rw [label?, Option.isSome_map, ← hasVertex_iff]
  rfl

/-- The second store has the vertices of the first, up to their properties, and these edges. -/
structure Redrawn (s : Store) (edges : Finset Edge) (t : Store) : Prop where
  wired : t.Wired
  label : ∀ id, t.label? id = s.label? id
  hasEdge : ∀ e, t.hasEdge e = true ↔ e ∈ edges

theorem Wired.redrawn (h : s.Wired) : s.Redrawn s.outline.edges s :=
  ⟨h, fun _ => rfl, fun _ => h.mem_outline_edges.symm⟩

theorem Redrawn.mem_keys (h : s.Redrawn edges t) (id : VertexId) :
    id ∈ t.vertices.keys ↔ id ∈ s.vertices.keys := by
  rw [mem_keys_iff_label?, h.label, ← mem_keys_iff_label?]

theorem steady_redrawn (s : Store) (edges : Finset Edge) : Steady (s.Redrawn edges) := by
  intro t u id key value event h hs
  have hm : t.perform (.setProperty id key value) = .ok ⟨u, .done, some event⟩ := by
    rw [perform, hs]
    rfl
  have hwired := h.wired.perform hm
  by_cases hk : key ∈ reservedKeys
  · rw [perform_setProperty_reserved t id hk] at hm
    cases hm
  · cases hv : t.vertex? id with
    | none =>
      rw [perform_setProperty_absent hv hk] at hm
      cases hm
    | some v =>
      rw [perform_setProperty_found hv hk] at hm
      cases hm
      refine ⟨hwired, fun x => ?_, h.hasEdge⟩
      rw [← h.label, label?, label?, vertex?, OrderedMap.get?_insert]
      split
      · next hx => simp [hx, hv, Vertex.written]
      · rfl

theorem Redrawn.setEdge (h : s.Redrawn edges t) (ho : e.origin ∈ s.vertices.keys)
    (ht : e.target ∈ s.vertices.keys) :
    ∃ out, t.perform (.setEdge e) = .ok out ∧ s.Redrawn (insert e edges) out.store := by
  have hm := h.wired.keyed.perform_setEdge ((h.mem_keys _).mpr ho) ((h.mem_keys _).mpr ht)
  by_cases he : t.hasEdge e = true
  · rw [if_pos he] at hm
    refine ⟨_, hm, h.wired, h.label, fun x => ?_⟩
    rw [Finset.insert_eq_of_mem ((h.hasEdge e).mp he)]
    exact h.hasEdge x
  · rw [if_neg he] at hm
    refine ⟨_, hm, h.wired.perform hm, h.label, fun x => ?_⟩
    rw [hasEdge_linked, Bool.or_eq_true, h.hasEdge, decide_eq_true_eq, Finset.mem_insert, or_comm]

theorem Redrawn.removeEdge (h : s.Redrawn edges t) (e : Edge) :
    ∃ out, t.perform (.removeEdge e) = .ok out ∧ s.Redrawn (edges.erase e) out.store := by
  have hm := h.wired.mirrored.perform_removeEdge e
  refine ⟨_, hm, h.wired.perform hm, h.label, fun x => ?_⟩
  rw [hasEdge_restrict, Bool.and_eq_true, h.hasEdge, decide_eq_true_eq, Finset.mem_erase, and_comm]

end Store

namespace Workspace

variable {w : Workspace} {g : GraphId} {s : Store} {edges : Finset Edge} {es : List Edge}

/-- A graph that has a vertex is one of those that there are. -/
theorem lt_length_of_mem_keys {id : VertexId} (h : id ∈ (w.store g).vertices.keys) :
    g < w.graphs.length := by
  by_contra hg
  rw [store, List.getElem?_eq_none (Nat.le_of_not_lt hg)] at h
  cases h

theorem performAll_removeEdges_ok (w : Workspace) (g : GraphId) (es : List Edge) :
    (w.performAll g (es.map .removeEdge)).2 = .ok () := by
  induction es generalizing w with
  | nil => rfl
  | cons e es ih =>
    rw [List.map_cons, performAll]
    exact ih _

theorem Holds.setEdges (h : w.Holds g (s.Redrawn edges))
    (hes : ∀ e ∈ es, e.origin ∈ s.vertices.keys ∧ e.target ∈ s.vertices.keys) :
    ∃ w', w.performAll g (es.map .setEdge) = (w', .ok ())
      ∧ w'.Holds g (s.Redrawn (edges ∪ es.toFinset)) := by
  induction es generalizing w edges with
  | nil => exact ⟨w, rfl, by simpa using h⟩
  | cons e es ih =>
    obtain ⟨ho, ht⟩ := hes e List.mem_cons_self
    obtain ⟨out, hm, hout⟩ := h.store.setEdge ho ht
    obtain ⟨w₁, hw₁, h₁⟩ := h.perform (Store.steady_redrawn s _) hm hout
    obtain ⟨w₂, hw₂, h₂⟩ := ih h₁ (fun e he => hes e (List.mem_cons_of_mem _ he))
    refine ⟨w₂, ?_, ?_⟩
    · rw [List.map_cons, performAll, hw₁]
      exact hw₂
    · rwa [List.toFinset_cons, Finset.union_insert, ← Finset.insert_union]

theorem Holds.removeEdges (h : w.Holds g (s.Redrawn edges)) (es : List Edge) :
    ∃ w', w.performAll g (es.map .removeEdge) = (w', .ok ())
      ∧ w'.Holds g (s.Redrawn (edges \ es.toFinset)) := by
  induction es generalizing w edges with
  | nil => exact ⟨w, rfl, by simpa using h⟩
  | cons e es ih =>
    obtain ⟨out, hm, hout⟩ := h.store.removeEdge e
    obtain ⟨w₁, hw₁, h₁⟩ := h.perform (Store.steady_redrawn s _) hm hout
    obtain ⟨w₂, hw₂, h₂⟩ := ih h₁
    refine ⟨w₂, ?_, ?_⟩
    · rw [List.map_cons, performAll, hw₁]
      exact hw₂
    · rwa [List.toFinset_cons, Finset.sdiff_insert, ← Finset.erase_sdiff_comm]

/-- An edge from what is no vertex fails, and those behind it are not tried. -/
theorem performAll_setEdge_noOrigin {e : Edge} (ho : e.origin ∉ (w.store g).vertices.keys)
    (rest : List Mutation) :
    w.performAll g (.setEdge e :: rest) = (w, .error (.missingVertex e.origin)) := by
  rw [performAll, perform, Store.perform_setEdge_noOrigin ho]

theorem performAll_setEdge_noTarget {e : Edge} (ho : e.origin ∈ (w.store g).vertices.keys)
    (ht : e.target ∉ (w.store g).vertices.keys) (rest : List Mutation) :
    w.performAll g (.setEdge e :: rest) = (w, .error (.missingVertex e.target)) := by
  rw [performAll, perform, Store.perform_setEdge_noTarget ho ht]

end Workspace

end PropertyGraph
