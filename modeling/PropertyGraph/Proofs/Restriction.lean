import PropertyGraph.Proofs.Adjacency
import PropertyGraph.Store.Mutation

namespace PropertyGraph.Store

variable {s : Store} {e : Edge} {id : VertexId}

theorem hasEdge_iff : s.hasEdge e = true ↔ e.type ∈ (s.outgoingOf e.origin).types e.target := by
  simp [hasEdge]

theorem outEdges_eq (s : Store) (id : VertexId) :
    s.outEdges id = (s.outgoingOf id).links.map (fun l => ⟨id, l.1, l.2⟩) := by
  simp [outEdges, Adjacency.links, List.map_flatMap, Function.comp_def]

theorem inEdges_eq (s : Store) (id : VertexId) :
    s.inEdges id = (s.incomingOf id).links.map (fun l => ⟨l.1, id, l.2⟩) := by
  simp [inEdges, Adjacency.links, List.map_flatMap, Function.comp_def]

theorem mem_outEdges : e ∈ s.outEdges id ↔ s.hasEdge e = true ∧ e.origin = id := by
  rw [outEdges_eq, List.mem_map, hasEdge_iff]
  constructor
  · rintro ⟨l, hl, rfl⟩
    exact ⟨Adjacency.mem_links.mp hl, rfl⟩
  · rintro ⟨ht, rfl⟩
    exact ⟨(e.target, e.type), Adjacency.mem_links.mpr ht, rfl⟩

/-- Both sides of the adjacency list the same edges, and no entry is empty or repeats a type. -/
structure Mirrored (s : Store) : Prop where
  outgoing : ∀ id, (s.outgoingOf id).Pruned
  incoming : ∀ id, (s.incomingOf id).Pruned
  agree : ∀ a b t, t ∈ (s.outgoingOf a).types b ↔ t ∈ (s.incomingOf b).types a

theorem Mirrored.outgoing_get? (h : s.Mirrored) {a : Adjacency}
    (hg : s.outgoing.get? id = some a) : a.Pruned := by
  simpa [outgoingOf, hg] using h.outgoing id

theorem Mirrored.incoming_get? (h : s.Mirrored) {a : Adjacency}
    (hg : s.incoming.get? id = some a) : a.Pruned := by
  simpa [incomingOf, hg] using h.incoming id

theorem Mirrored.mem_inEdges (h : s.Mirrored) :
    e ∈ s.inEdges id ↔ s.hasEdge e = true ∧ e.target = id := by
  rw [inEdges_eq, List.mem_map, hasEdge_iff, h.agree]
  constructor
  · rintro ⟨l, hl, rfl⟩
    exact ⟨Adjacency.mem_links.mp hl, rfl⟩
  · rintro ⟨ht, rfl⟩
    exact ⟨(e.origin, e.type), Adjacency.mem_links.mpr ht, rfl⟩

theorem Mirrored.nodup_outEdges (h : s.Mirrored) (id : VertexId) : (s.outEdges id).Nodup := by
  rw [outEdges_eq]
  refine (h.outgoing id).nodup_links.map ?_
  intro l m hlm
  simp only [Edge.mk.injEq, true_and] at hlm
  exact Prod.ext hlm.1 hlm.2

theorem Mirrored.nodup_inEdges (h : s.Mirrored) (id : VertexId) : (s.inEdges id).Nodup := by
  rw [inEdges_eq]
  refine (h.incoming id).nodup_links.map ?_
  intro l m hlm
  simp only [Edge.mk.injEq, true_and] at hlm
  exact Prod.ext hlm.1 hlm.2

/-- One side of the adjacency with the edges that a condition keeps. -/
def restrictSide (keep : VertexId → VertexId → String → Bool)
    (side : OrderedMap VertexId Adjacency) : OrderedMap VertexId Adjacency :=
  side.filterMap (fun id a => some (a.restrict (keep id)))

@[simp]
theorem get?_restrictSide (keep : VertexId → VertexId → String → Bool)
    (side : OrderedMap VertexId Adjacency) (id : VertexId) :
    (restrictSide keep side).get? id = (side.get? id).map (fun a => a.restrict (keep id)) := by
  rw [restrictSide, OrderedMap.get?_filterMap]
  cases side.get? id <;> rfl

@[simp]
theorem keys_restrictSide (keep : VertexId → VertexId → String → Bool)
    (side : OrderedMap VertexId Adjacency) : (restrictSide keep side).keys = side.keys := by
  simp [restrictSide, OrderedMap.keys, OrderedMap.filterMap, Entries.filterMap]

/-- Changing the adjacency of one vertex restricts the whole side to what is left of it. -/
theorem modify_eq_restrictSide {keep : VertexId → VertexId → String → Bool}
    {side : OrderedMap VertexId Adjacency} {f : Adjacency → Adjacency}
    (hp : ∀ i a, side.get? i = some a → a.Pruned)
    (hf : ∀ a, a.Pruned → f a = a.restrict (keep id))
    (hk : ∀ i, i ≠ id → ∀ n t, keep i n t = true) :
    side.modify id f = restrictSide keep side := by
  refine OrderedMap.ext_get? (by rw [OrderedMap.keys_modify, keys_restrictSide]) ?_
  intro i
  rw [OrderedMap.get?_modify, get?_restrictSide]
  by_cases hi : i = id
  · subst hi
    cases hg : side.get? i with
    | none => simp
    | some a => simp [hf a (hp i a hg)]
  · rw [if_neg hi]
    cases hg : side.get? i with
    | none => rfl
    | some a =>
      rw [Option.map_some, Adjacency.restrict_eq_self (hp i a hg) (fun n t _ => hk i hi n t)]

theorem restrictSide_congr {p q : VertexId → VertexId → String → Bool}
    {side : OrderedMap VertexId Adjacency} (hp : ∀ i a, side.get? i = some a → a.Pruned)
    (hpq : ∀ i a, side.get? i = some a → ∀ n, ∀ t ∈ a.types n, p i n t = q i n t) :
    restrictSide p side = restrictSide q side := by
  refine OrderedMap.ext_get? (by simp) ?_
  intro i
  rw [get?_restrictSide, get?_restrictSide]
  cases hg : side.get? i with
  | none => rfl
  | some a =>
    rw [Option.map_some, Option.map_some, Adjacency.restrict_congr (hp i a hg) (hpq i a hg)]

/-- The store with only the edges that a condition keeps. -/
def restrict (s : Store) (keep : Edge → Bool) : Store :=
  ⟨s.vertices, restrictSide (fun id n t => keep ⟨id, n, t⟩) s.outgoing,
    restrictSide (fun id n t => keep ⟨n, id, t⟩) s.incoming, s.typeIndex⟩

/-- A missing entry reads as an empty one, which stays empty. -/
theorem getD_restrictSide (keep : VertexId → VertexId → String → Bool)
    (side : OrderedMap VertexId Adjacency) (id : VertexId) :
    ((restrictSide keep side).get? id).getD .empty =
      ((side.get? id).getD .empty).restrict (keep id) := by
  rw [get?_restrictSide]
  cases side.get? id <;> rfl

@[simp]
theorem outgoingOf_restrict (s : Store) (keep : Edge → Bool) (id : VertexId) :
    (s.restrict keep).outgoingOf id =
      (s.outgoingOf id).restrict (fun n t => keep ⟨id, n, t⟩) :=
  getD_restrictSide _ s.outgoing id

@[simp]
theorem incomingOf_restrict (s : Store) (keep : Edge → Bool) (id : VertexId) :
    (s.restrict keep).incomingOf id =
      (s.incomingOf id).restrict (fun n t => keep ⟨n, id, t⟩) :=
  getD_restrictSide _ s.incoming id

theorem hasEdge_restrict (s : Store) (keep : Edge → Bool) (e : Edge) :
    (s.restrict keep).hasEdge e = (s.hasEdge e && keep e) := by
  rw [Bool.eq_iff_iff, Bool.and_eq_true, hasEdge_iff, hasEdge_iff, outgoingOf_restrict,
    Adjacency.types_restrict, List.mem_filter]

theorem inEdges_restrict (s : Store) (keep : Edge → Bool) (id : VertexId) :
    (s.restrict keep).inEdges id = (s.inEdges id).filter keep := by
  rw [inEdges_eq, inEdges_eq, incomingOf_restrict, Adjacency.links_restrict, List.filter_map]
  rfl

theorem Mirrored.restrict (h : s.Mirrored) (keep : Edge → Bool) : (s.restrict keep).Mirrored where
  outgoing id := by
    rw [outgoingOf_restrict]
    exact (h.outgoing id).restrict _
  incoming id := by
    rw [incomingOf_restrict]
    exact (h.incoming id).restrict _
  agree a b t := by
    simp only [outgoingOf_restrict, incomingOf_restrict, Adjacency.types_restrict, List.mem_filter,
      h.agree a b t]

/-- Only the edges of the store matter for what a condition leaves of it. -/
theorem Mirrored.restrict_congr (h : s.Mirrored) {p q : Edge → Bool}
    (hpq : ∀ e, s.hasEdge e = true → p e = q e) : s.restrict p = s.restrict q := by
  have ho : restrictSide (fun id n t => p ⟨id, n, t⟩) s.outgoing =
      restrictSide (fun id n t => q ⟨id, n, t⟩) s.outgoing := by
    refine restrictSide_congr (fun i a hg => h.outgoing_get? hg) ?_
    intro i a hg n t ht
    exact hpq ⟨i, n, t⟩ (hasEdge_iff.mpr (by simpa [outgoingOf, hg] using ht))
  have hi : restrictSide (fun id n t => p ⟨n, id, t⟩) s.incoming =
      restrictSide (fun id n t => q ⟨n, id, t⟩) s.incoming := by
    refine restrictSide_congr (fun i a hg => h.incoming_get? hg) ?_
    intro i a hg n t ht
    refine hpq ⟨n, i, t⟩ (hasEdge_iff.mpr ((h.agree n i t).mpr ?_))
    simpa [incomingOf, hg] using ht
  rw [Store.restrict, Store.restrict, ho, hi]

theorem Mirrored.restrict_eq_self (h : s.Mirrored) {keep : Edge → Bool}
    (hk : ∀ e, s.hasEdge e = true → keep e = true) : s.restrict keep = s := by
  have ht : s.restrict (fun _ => true) = s := by
    obtain ⟨vertices, outgoing, incoming, typeIndex⟩ := s
    have hs : ∀ side : OrderedMap VertexId Adjacency,
        (∀ i a, side.get? i = some a → a.Pruned) →
          restrictSide (fun _ _ _ => true) side = side := by
      intro side hp
      refine OrderedMap.ext_get? (by simp) ?_
      intro i
      rw [get?_restrictSide]
      cases hg : side.get? i with
      | none => rfl
      | some a => rw [Option.map_some, Adjacency.restrict_eq_self (hp i a hg) (fun _ _ _ => rfl)]
    rw [Store.restrict, hs _ (fun i a hg => h.outgoing_get? hg),
      hs _ (fun i a hg => h.incoming_get? hg)]
  rw [h.restrict_congr hk, ht]

theorem restrictSide_restrictSide {side : OrderedMap VertexId Adjacency}
    (hp : ∀ i a, side.get? i = some a → a.Pruned) (p q : VertexId → VertexId → String → Bool) :
    restrictSide q (restrictSide p side) = restrictSide (fun i n t => p i n t && q i n t) side := by
  refine OrderedMap.ext_get? (by simp) ?_
  intro i
  simp only [get?_restrictSide]
  cases hg : side.get? i with
  | none => rfl
  | some a => simp only [Option.map_some, Adjacency.restrict_restrict (hp i a hg)]

theorem Mirrored.restrict_restrict (h : s.Mirrored) (p q : Edge → Bool) :
    (s.restrict p).restrict q = s.restrict (fun e => p e && q e) := by
  simp only [Store.restrict, restrictSide_restrictSide (fun _ _ hg => h.outgoing_get? hg),
    restrictSide_restrictSide (fun _ _ hg => h.incoming_get? hg)]

/-- Taking an edge away keeps exactly the others, also where the edge was not there. -/
theorem Mirrored.unlink_eq (h : s.Mirrored) (e : Edge) :
    (s.unlink e).1 = s.restrict (fun x => decide (x ≠ e)) := by
  obtain ⟨origin, target, type⟩ := e
  unfold unlink
  split
  · have ho : s.outgoing.modify origin (fun a => a.unlink target type) =
        restrictSide (fun id n t => decide ((⟨id, n, t⟩ : Edge) ≠ ⟨origin, target, type⟩))
          s.outgoing := by
      refine modify_eq_restrictSide (fun _ _ hg => h.outgoing_get? hg) ?_ ?_
      · intro a ha
        rw [Adjacency.unlink_eq_restrict ha]
        congr
        funext n t
        simp [Adjacency.other]
      · intro i hi n t
        simp [hi]
    have hi : s.incoming.modify target (fun a => a.discard origin type) =
        restrictSide (fun id n t => decide ((⟨n, id, t⟩ : Edge) ≠ ⟨origin, target, type⟩))
          s.incoming := by
      refine modify_eq_restrictSide (fun _ _ hg => h.incoming_get? hg) ?_ ?_
      · intro a ha
        rw [Adjacency.discard_eq_restrict ha]
        congr
        funext n t
        simp [Adjacency.other]
      · intro i hi n t
        simp [hi]
    rw [ho, hi, Store.restrict]
  · next hn =>
    refine (h.restrict_eq_self ?_).symm
    intro x hx
    exact decide_eq_true (fun he => hn (he ▸ hx))

theorem Mirrored.unlinkAll_eq (h : s.Mirrored) (es : List Edge) :
    s.unlinkAll es = s.restrict (fun x => decide (x ∉ es)) := by
  unfold unlinkAll
  induction es generalizing s with
  | nil => exact (h.restrict_eq_self (by simp)).symm
  | cons e rest ih =>
    rw [List.foldl_cons, h.unlink_eq, ih (h.restrict _), h.restrict_restrict]
    congr
    funext x
    simp [List.mem_cons, not_or]

/-- The edges at a vertex, each once: the leaving ones, then the arriving ones but for the
loops. -/
def incidentEdges (s : Store) (id : VertexId) : List Edge :=
  s.outEdges id ++ (s.inEdges id).filter (fun e => e.origin ≠ id)

theorem Mirrored.mem_incidentEdges (h : s.Mirrored) :
    e ∈ s.incidentEdges id ↔ s.hasEdge e = true ∧ (e.origin = id ∨ e.target = id) := by
  simp only [incidentEdges, List.mem_append, mem_outEdges, List.mem_filter, h.mem_inEdges]
  by_cases ho : e.origin = id <;> simp [ho]

/-- A loop stands on both sides of its vertex, but is listed only among the leaving edges. -/
theorem Mirrored.nodup_incidentEdges (h : s.Mirrored) (id : VertexId) :
    (s.incidentEdges id).Nodup := by
  refine List.nodup_append'.mpr ⟨h.nodup_outEdges id, (h.nodup_inEdges id).filter _, ?_⟩
  intro e hout hin
  have hloop : e.origin = id := (mem_outEdges.mp hout).2
  simpa [hloop] using (List.mem_filter.mp hin).2

/-- Whether an edge leaves other vertices than this one and arrives at others. -/
def avoids (id : VertexId) (e : Edge) : Bool := e.origin ≠ id && e.target ≠ id

/-- The store without a vertex that is of the given type, and without its edges. -/
def without (s : Store) (id : VertexId) (type : String) : Store :=
  ⟨s.vertices.erase id, (s.restrict (avoids id)).outgoing.erase id,
    (s.restrict (avoids id)).incoming.erase id,
    s.typeIndex.modify type (fun bucket => bucket.erase id)⟩

/-- The walk over the copied adjacency takes away the edges at the vertex and no others, and
reports each of them once. -/
theorem Mirrored.removeVertex_eq (h : s.Mirrored) {v : Vertex} (hv : s.vertex? id = some v) :
    s.removeVertex id =
      .ok (s.without id v.type, s.incidentEdges id, .deleteNode v (s.incidentEdges id)) := by
  have hcut := h.unlinkAll_eq (s.outEdges id)
  have harriving : (s.unlinkAll (s.outEdges id)).inEdges id =
      (s.inEdges id).filter (fun e => e.origin ≠ id) := by
    rw [hcut, inEdges_restrict]
    apply List.filter_congr
    intro e he
    have hs := (h.mem_inEdges.mp he).1
    simp [mem_outEdges, hs]
  have hbare : (s.unlinkAll (s.outEdges id)).unlinkAll
      ((s.unlinkAll (s.outEdges id)).inEdges id) = s.restrict (avoids id) := by
    rw [harriving, hcut, (h.restrict _).unlinkAll_eq, h.restrict_restrict]
    apply h.restrict_congr
    intro e he
    by_cases ho : e.origin = id <;>
      simp [avoids, mem_outEdges, h.mem_inEdges, List.mem_filter, he, ho]
  rw [removeVertex, hv]
  dsimp only
  rw [hbare, harriving]
  rfl

end PropertyGraph.Store
