import PropertyGraph.Proofs.Reachable
import PropertyGraph.Store.Snapshot

namespace PropertyGraph

namespace OrderedMap

variable {κ β γ : Type} [DecidableEq κ]

/-- A search of the entries fails if it fails at each key. -/
theorem findSome?_entries_eq_none {m : OrderedMap κ β} {f : κ × β → Option γ} :
    m.entries.findSome? f = none ↔ ∀ k v, m.get? k = some v → f (k, v) = none := by
  rw [List.findSome?_eq_none_iff]
  constructor
  · intro h k v hv
    exact h (k, v) (mem_entries_iff.mpr hv)
  · intro h e he
    exact h e.1 e.2 (mem_entries_iff.mp he)

end OrderedMap

namespace Snapshot

variable {s : Snapshot} {vertices : OrderedMap VertexId Vertex}
  {this other : OrderedMap VertexId Adjacency} {ids : List VertexId} {id n : VertexId}
  {types : List String}

/-- One side of the adjacency belongs to vertices, leads to vertices, and lists the types of the
other side. -/
def SideFits (vertices : OrderedMap VertexId Vertex) (this other : OrderedMap VertexId Adjacency) :
    Prop :=
  ∀ id a, this.get? id = some a → id ∈ vertices.keys ∧
    ∀ n types, a.get? n = some types →
      n ∈ vertices.keys ∧ types ≠ [] ∧ types.Nodup ∧ mirrored other id n types = true

/-- The other side has an entry that is as long and lists all that stands here. -/
theorem mirrored_iff :
    mirrored other id n types = true ↔
      ∃ back, (other.get? n).bind (fun a => a.get? id) = some back ∧
        back.length = types.length ∧ types ⊆ back := by
  unfold mirrored
  cases (other.get? n).bind (fun a => a.get? id) with
  | none => simp
  | some back => simp [List.subset_def]

theorem pairFault?_eq_none {side : Side} :
    pairFault? vertices other side id n types = none ↔
      n ∈ vertices.keys ∧ types ≠ [] ∧ types.Nodup ∧ mirrored other id n types = true := by
  rw [← vertices.contains_iff]
  unfold pairFault?
  cases vertices.contains n <;> by_cases hn : types = [] <;> by_cases hd : types.Nodup <;>
    cases mirrored other id n types <;> simp [hn, hd]

theorem sideFault?_eq_none {side : Side} :
    sideFault? vertices this other side = none ↔ SideFits vertices this other := by
  unfold sideFault? SideFits
  rw [OrderedMap.findSome?_entries_eq_none]
  refine forall₃_congr (fun id a _ => ?_)
  rw [← vertices.contains_iff]
  cases vertices.contains id with
  | false => simp
  | true =>
    simp only [Bool.not_true, Bool.false_eq_true, ↓reduceIte, true_and]
    rw [OrderedMap.findSome?_entries_eq_none]
    exact forall₃_congr (fun n types _ => pairFault?_eq_none)

/-- What the check of a snapshot demands. -/
structure Consistent (s : Snapshot) : Prop where
  outgoing : SideFits s.vertices s.outgoing s.incoming
  incoming : SideFits s.vertices s.incoming s.outgoing
  filed : ∀ type bucket, s.typeIndex.get? type = some bucket →
    ∀ id ∈ bucket.elems, ∃ v, s.vertices.get? id = some v ∧ v.type = type
  indexed : ∀ id v, s.vertices.get? id = some v →
    ∃ bucket, s.typeIndex.get? v.type = some bucket ∧ id ∈ bucket.elems

theorem bucketFault?_eq_none :
    s.bucketFault? = none ↔ ∀ type bucket, s.typeIndex.get? type = some bucket →
      ∀ id ∈ bucket.elems, ∃ v, s.vertices.get? id = some v ∧ v.type = type := by
  unfold bucketFault?
  rw [OrderedMap.findSome?_entries_eq_none]
  refine forall₃_congr (fun type bucket _ => ?_)
  rw [List.findSome?_eq_none_iff]
  refine forall₂_congr (fun id _ => ?_)
  cases s.vertices.get? id <;> simp

theorem indexFault?_eq_none :
    s.indexFault? = none ↔ ∀ id v, s.vertices.get? id = some v →
      ∃ bucket, s.typeIndex.get? v.type = some bucket ∧ id ∈ bucket.elems := by
  unfold indexFault?
  rw [OrderedMap.findSome?_entries_eq_none]
  refine forall₃_congr (fun id v _ => ?_)
  cases s.typeIndex.get? v.type <;> simp [OrderedSet.contains]

theorem fault?_eq_none : s.fault? = none ↔ s.Consistent := by
  simp only [fault?, Option.orElse_eq_orElse, Option.orElse_eq_or, Option.or_eq_none_iff,
    sideFault?_eq_none, bucketFault?_eq_none, indexFault?_eq_none]
  constructor
  · rintro ⟨ho, hi, hf, hx⟩
    exact ⟨ho, hi, hf, hx⟩
  · intro h
    exact ⟨h.outgoing, h.incoming, h.filed, h.indexed⟩

theorem completed_eq_self {side : OrderedMap VertexId Adjacency} (h : ∀ id ∈ ids, id ∈ side.keys) :
    completed ids side = side := by
  unfold completed
  induction ids with
  | nil => rfl
  | cons id rest ih =>
    rw [List.foldl_cons, if_pos (side.contains_iff.mpr (h id List.mem_cons_self))]
    exact ih (fun x hx => h x (List.mem_cons_of_mem _ hx))

theorem mem_keys_completed (ids : List VertexId) (side : OrderedMap VertexId Adjacency) :
    id ∈ (completed ids side).keys ↔ id ∈ side.keys ∨ id ∈ ids := by
  unfold completed
  induction ids generalizing side with
  | nil => simp
  | cons x rest ih =>
    rw [List.foldl_cons, ih]
    split
    · next hx =>
      rw [side.contains_iff] at hx
      constructor
      · exact fun h => h.imp_right (List.mem_cons_of_mem x)
      · rintro (h | h)
        · exact Or.inl h
        · rcases List.mem_cons.mp h with rfl | h
          · exact Or.inl hx
          · exact Or.inr h
    · rw [OrderedMap.mem_keys_insert, List.mem_cons]
      tauto

/-- An entry that is added is empty, as a missing entry reads. -/
theorem getD_completed (ids : List VertexId) (side : OrderedMap VertexId Adjacency)
    (id : VertexId) : ((completed ids side).get? id).getD .empty = (side.get? id).getD .empty := by
  unfold completed
  induction ids generalizing side with
  | nil => rfl
  | cons x rest ih =>
    rw [List.foldl_cons, ih]
    split
    · rfl
    · next hx =>
      rw [Store.getD_insert]
      split
      · next he =>
        have hn : side.get? id = none := by
          rw [side.get?_eq_none_iff, he, ← side.contains_iff]
          exact hx
        rw [hn]
        rfl
      · rfl

/-- The store that a snapshot describes. -/
def store (s : Snapshot) : Store :=
  ⟨s.vertices, completed s.vertices.keys s.outgoing, completed s.vertices.keys s.incoming,
    s.typeIndex⟩

/-- A snapshot is accepted if it is consistent, and for no other reason. -/
theorem restore_eq_ok_iff {t : Store} : s.restore = .ok t ↔ s.Consistent ∧ t = s.store := by
  rw [← fault?_eq_none]
  unfold restore store
  cases s.fault? with
  | none => simp [eq_comm]
  | some fault => simp

end Snapshot

namespace Store

variable {s : Store}

theorem WellFormed.sideFits_outgoing (h : s.WellFormed) :
    Snapshot.SideFits s.vertices s.outgoing s.incoming := by
  intro id a ha
  refine ⟨h.outgoing_keys ▸ OrderedMap.mem_keys_of_get? ha, fun n types hn => ?_⟩
  have hf : s.forward? id n = some types := by rw [forward?, ha, Option.bind_some, hn]
  have hp := h.mirrored.outgoing_get? ha n types hn
  have hb : (s.incoming.get? n).bind (fun a => a.get? id) = some types := by
    rw [← backward?, h.backward?_eq, ← h.same_types, ← h.forward?_eq, hf]
  exact ⟨(h.ends_of_forward? hf).2, hp.1, hp.2,
    Snapshot.mirrored_iff.mpr ⟨types, hb, rfl, List.Subset.refl types⟩⟩

theorem WellFormed.sideFits_incoming (h : s.WellFormed) :
    Snapshot.SideFits s.vertices s.incoming s.outgoing := by
  intro id a ha
  refine ⟨h.incoming_keys ▸ OrderedMap.mem_keys_of_get? ha, fun n types hn => ?_⟩
  have hf : s.forward? n id = some types := by
    rw [h.forward?_eq, h.same_types, ← h.backward?_eq, backward?, ha, Option.bind_some, hn]
  have hp := h.mirrored.incoming_get? ha n types hn
  exact ⟨(h.ends_of_forward? hf).1, hp.1, hp.2,
    Snapshot.mirrored_iff.mpr ⟨types, hf, rfl, List.Subset.refl types⟩⟩

/-- A store whose buckets name vertices of their type only passes the check. -/
theorem WellFormed.consistent (h : s.WellFormed) (hf : s.Filed) : s.snapshot.Consistent where
  outgoing := h.sideFits_outgoing
  incoming := h.sideFits_incoming
  filed type bucket hb id hid := hf type id (mem_idsOf_some.mpr ⟨bucket, hb, hid⟩)
  indexed id v hv := mem_idsOf_some.mp (h.indexed id v hv)

/-- Each vertex has its entries already, so nothing is added. -/
theorem WellFormed.store_snapshot (h : s.WellFormed) : s.snapshot.store = s := by
  have ho : Snapshot.completed s.vertices.keys s.outgoing = s.outgoing :=
    Snapshot.completed_eq_self (fun id hid => h.outgoing_keys ▸ hid)
  have hi : Snapshot.completed s.vertices.keys s.incoming = s.incoming :=
    Snapshot.completed_eq_self (fun id hid => h.incoming_keys ▸ hid)
  rw [Snapshot.store, snapshot]
  dsimp only
  rw [ho, hi]

/-- As long as no present vertex is given another type, the copy of a store is accepted and gives
the same four maps, entry for entry, also by way of an archive. -/
theorem export_restores_store (calls : List Call) (hk : Store.empty.keepsTypes calls = true) :
    let s := Store.empty.run calls
    s.snapshot.restore = .ok s ∧ ∀ archive : Archive, (archive.commit s).reopen = .ok s := by
  intro s
  have h : s.WellFormed := wellFormed_empty.run calls
  have hf : s.Filed := filed_empty.run wellFormed_empty hk
  have hr : s.snapshot.restore = .ok s :=
    Snapshot.restore_eq_ok_iff.mpr ⟨h.consistent hf, h.store_snapshot.symm⟩
  exact ⟨hr, fun _ => hr⟩

/-- The last robot has gone, and its bucket has stayed. -/
theorem emptied_bucket_is_restored :
    let calls : List Call := [.perform (.setVertex "a" "Robot" []),
      .perform (.setVertex "b" "Person" []), .perform (.setEdge ⟨"b", "a", "owns"⟩),
      .perform (.setEdge ⟨"a", "a", "knows"⟩), .perform (.removeVertex "a"),
      .apply (.createNode ⟨"a", "Person", []⟩), .perform (.setEdge ⟨"a", "b", "knows"⟩)]
    let s := Store.empty.run calls
    Store.empty.keepsTypes calls = true ∧ s.typeIndex.keys = ["Robot", "Person"] ∧
      (Archive.empty.commit s).reopen = .ok s := by
  intro calls s
  have hk : Store.empty.keepsTypes calls = true := by decide
  exact ⟨hk, by decide, (export_restores_store calls hk).2 Archive.empty⟩

end Store

end PropertyGraph
