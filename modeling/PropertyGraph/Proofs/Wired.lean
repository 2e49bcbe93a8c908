import PropertyGraph.Proofs.Outline
import PropertyGraph.Proofs.Restored

namespace PropertyGraph

namespace Store

variable {s : Store} {e : Edge} {id : VertexId} {m : Mutation} {o : Outcome}

structure Wired (s : Store) : Prop where
  keyed : s.Keyed
  mirrored : s.Mirrored

theorem wired_empty : empty.Wired where
  keyed := ⟨fun _ => Iff.rfl, fun _ => Iff.rfl⟩
  mirrored := wellFormed_empty.mirrored

/-- Both ends of an edge are vertices. -/
theorem Wired.ends (h : s.Wired) (he : s.hasEdge e = true) :
    e.origin ∈ s.vertices.keys ∧ e.target ∈ s.vertices.keys :=
  h.mirrored.ends (fun id => (h.keyed.outgoing id).mp) (fun id => (h.keyed.incoming id).mp) he

/-- No edge leaves what is not a vertex. -/
theorem Wired.outEdges_eq_nil (h : s.Wired) (hid : id ∉ s.vertices.keys) : s.outEdges id = [] := by
  rw [List.eq_nil_iff_forall_not_mem]
  intro e he
  obtain ⟨hedge, rfl⟩ := mem_outEdges.mp he
  exact hid (h.ends hedge).1

section Steps

theorem Wired.mirrored_stored (h : s.Wired) (v : Vertex) : (s.stored v).Mirrored := by
  have ho : ∀ id, (s.stored v).outgoingOf id = s.outgoingOf id :=
    getD_opened (fun x hx => (h.keyed.outgoing x).mp hx) v.id
  have hi : ∀ id, (s.stored v).incomingOf id = s.incomingOf id :=
    getD_opened (fun x hx => (h.keyed.incoming x).mp hx) v.id
  refine ⟨fun id => ?_, fun id => ?_, fun a b t => ?_⟩
  · rw [ho]
    exact h.mirrored.outgoing id
  · rw [hi]
    exact h.mirrored.incoming id
  · rw [ho, hi]
    exact h.mirrored.agree a b t

theorem Keyed.perform_setEdge (h : s.Keyed) (ho : e.origin ∈ s.vertices.keys)
    (ht : e.target ∈ s.vertices.keys) :
    s.perform (.setEdge e) =
      if s.hasEdge e then .ok ⟨s, .changed false, none⟩
      else .ok ⟨s.linked e, .changed true, some (.makeEdge e)⟩ :=
  perform_setEdge_of_mem ho ht ((h.outgoing _).mpr ho)

/-- Taking an edge away keeps the others, and never fails. -/
theorem Mirrored.perform_removeEdge (h : s.Mirrored) (e : Edge) :
    s.perform (.removeEdge e) =
      .ok ⟨s.restrict (fun x => decide (x ≠ e)), .changed (s.hasEdge e),
        if s.hasEdge e then some (.deleteEdge e) else none⟩ := by
  have hreply : (s.unlink e).2 = s.hasEdge e := by
    unfold unlink
    split
    · next he => exact he.symm
    · next he => simpa using he
  rw [perform, removeEdge]
  simp only [h.unlink_eq, hreply]

end Steps

/-- Every mutation keeps the two sides of the adjacency alike. -/
theorem Wired.perform_mirrored (h : s.Wired) (hm : s.perform m = .ok o) : o.store.Mirrored := by
  cases m with
  | setVertex id type properties =>
    cases hv : s.vertex? id with
    | none =>
      rw [perform_setVertex_absent hv] at hm
      cases hm
      exact h.mirrored_stored _
    | some v =>
      rw [perform_setVertex_present hv] at hm
      cases hm
      exact h.mirrored_stored _
  | setProperty id key value =>
    by_cases hk : key ∈ reservedKeys
    · rw [perform_setProperty_reserved s id hk] at hm
      cases hm
    · cases hv : s.vertex? id with
      | none =>
        rw [perform_setProperty_absent hv hk] at hm
        cases hm
      | some v =>
        rw [perform_setProperty_found hv hk] at hm
        cases hm
        exact ⟨h.mirrored.outgoing, h.mirrored.incoming, h.mirrored.agree⟩
  | removeVertex id =>
    cases hv : s.vertex? id with
    | none =>
      rw [perform_removeVertex_absent hv] at hm
      cases hm
    | some v =>
      rw [perform, h.mirrored.removeVertex_eq hv] at hm
      cases hm
      exact h.mirrored.without id v.type
  | setEdge e =>
    by_cases ho : e.origin ∈ s.vertices.keys
    · by_cases ht : e.target ∈ s.vertices.keys
      · rw [h.keyed.perform_setEdge ho ht] at hm
        split at hm
        · cases hm
          exact h.mirrored
        · next hn =>
          cases hm
          exact h.mirrored.linked (by simpa using hn)
      · rw [perform_setEdge_noTarget ho ht] at hm
        cases hm
    · rw [perform_setEdge_noOrigin ho] at hm
      cases hm
  | removeEdge e =>
    rw [h.mirrored.perform_removeEdge] at hm
    cases hm
    exact h.mirrored.restrict (fun x => decide (x ≠ e))

theorem Wired.perform (h : s.Wired) (hm : s.perform m = .ok o) : o.store.Wired :=
  ⟨(h.keyed.perform_turn hm).keyed h.keyed, h.perform_mirrored hm⟩

theorem Wired.after (h : s.Wired) (c : Call) : (s.after c).Wired := by
  rcases s.after_cases c with he | ⟨m, o, _, ho, he⟩
  · rwa [he]
  · rw [he]
    exact h.perform ho

theorem Attained.run (h : s.Attained) (calls : List Call) : (s.run calls).Attained := by
  unfold Store.run
  induction calls generalizing s with
  | nil => exact h
  | cons c rest ih => exact ih (.called s c h)

theorem Attained.wired (h : s.Attained) : s.Wired := by
  induction h with
  | empty => exact wired_empty
  | restored snapshot s hr =>
    obtain ⟨hs, rfl⟩ := Snapshot.restore_eq_ok_iff.mp hr
    exact ⟨hs.store_keyed, hs.store_mirrored⟩
  | called s c _ ih => exact ih.after c

end Store

end PropertyGraph
