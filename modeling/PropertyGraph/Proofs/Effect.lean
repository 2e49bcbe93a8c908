import PropertyGraph.Proofs.WellFormed

namespace PropertyGraph

namespace Vertex

/-- The vertex with one property written. -/
def written (v : Vertex) (key : String) (value : Value) : Vertex :=
  ⟨v.id, v.type, SortedEntries.insert key value v.properties⟩

theorem Clean.written {v : Vertex} (hv : v.Clean) {key : String} (hk : key ∉ reservedKeys)
    (value : Value) : (v.written key value).Clean := by
  intro p hp
  rcases SortedEntries.mem_insert hp with rfl | hm
  · exact hk
  · exact hv p hm

/-- The vertex that is stored for an id, a type and the properties that come with them. -/
def cleaned (id : VertexId) (type : String) (properties : Properties) : Vertex :=
  ⟨id, type, properties.filter (fun p => !reservedKeys.contains p.1)⟩

theorem clean_cleaned (id : VertexId) (type : String) (properties : Properties) :
    (cleaned id type properties).Clean := by
  intro p hp
  simpa using (List.mem_filter.mp hp).2

theorem Clean.cleaned_eq {v : Vertex} (hv : v.Clean) : cleaned v.id v.type v.properties = v := by
  have hp : v.properties.filter (fun p => !reservedKeys.contains p.1) = v.properties := by
    apply List.filter_eq_self.mpr
    intro p hm
    simpa using hv p hm
  rw [cleaned, hp]

end Vertex

namespace Store

variable {s : Store} {e : Edge} {id : VertexId} {v : Vertex} {m : Mutation} {o : Outcome}

/-- All that a mutation which succeeds can do to a well-formed store. -/
inductive Effect (s : Store) (m : Mutation) : Outcome → Prop where
  | created (v : Vertex) (clean : v.Clean) (absent : s.vertex? v.id = none) :
      Effect s m ⟨s.stored v, .done, some (.createNode v)⟩
  | updated (previous v : Vertex) (clean : v.Clean) (found : s.vertex? v.id = some previous)
      (kept : s.keepsType m = true → previous.type = v.type) :
      Effect s m ⟨s.stored v, .done, some (.updateNode previous v)⟩
  | removed (v : Vertex) (found : s.vertex? v.id = some v) :
      Effect s m ⟨s.without v.id v.type, .removed (s.incidentEdges v.id),
        some (.deleteNode v (s.incidentEdges v.id))⟩
  | made (e : Edge) (origin : e.origin ∈ s.vertices.keys) (target : e.target ∈ s.vertices.keys)
      (absent : s.hasEdge e = false) :
      Effect s m ⟨s.linked e, .changed true, some (.makeEdge e)⟩
  | deleted (e : Edge) (found : s.hasEdge e = true) :
      Effect s m ⟨s.restrict (fun x => decide (x ≠ e)), .changed true, some (.deleteEdge e)⟩
  | unchanged : Effect s m ⟨s, .changed false, none⟩

theorem perform_setVertex_absent (hn : s.vertex? id = none) (type : String)
    (properties : Properties) :
    s.perform (.setVertex id type properties) =
      .ok ⟨s.stored (.cleaned id type properties), .done,
        some (.createNode (.cleaned id type properties))⟩ := by
  have hp : s.hasVertex id = false := by
    rw [Bool.eq_false_iff]
    exact fun hm => vertex?_eq_none.mp hn (hasVertex_iff.mp hm)
  simp only [perform, setVertex, hn, stored, opened, Vertex.cleaned, hp, Bool.false_eq_true,
    ↓reduceIte]
  rfl

theorem perform_setVertex_present (hv : s.vertex? id = some v) (type : String)
    (properties : Properties) :
    s.perform (.setVertex id type properties) =
      .ok ⟨s.stored (.cleaned id type properties), .done,
        some (.updateNode v (.cleaned id type properties))⟩ := by
  simp only [perform, setVertex, hv, stored, opened, Vertex.cleaned, hasVertex_of_vertex? hv,
    ↓reduceIte]
  rfl

/-- Writing a whole vertex tells of no edge. -/
theorem perform_setVertex (s : Store) (id : VertexId) (type : String) (properties : Properties) :
    ∃ event, event.edge? = none ∧ s.perform (.setVertex id type properties) =
      .ok ⟨s.stored (.cleaned id type properties), .done, some event⟩ := by
  cases hv : s.vertex? id with
  | none => exact ⟨_, rfl, perform_setVertex_absent hv type properties⟩
  | some v => exact ⟨_, rfl, perform_setVertex_present hv type properties⟩

theorem perform_setProperty_reserved (s : Store) (id : VertexId) {key : String}
    (hk : key ∈ reservedKeys) (value : Value) :
    s.perform (.setProperty id key value) = .error (.reservedKey key) := by
  have hc : reservedKeys.contains key = true := by simpa using hk
  rw [perform, setProperty, if_pos hc]
  rfl

theorem perform_setProperty_absent (hn : s.vertex? id = none) {key : String}
    (hk : key ∉ reservedKeys) (value : Value) :
    s.perform (.setProperty id key value) = .error (.missingVertex id) := by
  have hc : ¬ reservedKeys.contains key = true := by simpa using hk
  rw [perform, setProperty, if_neg hc, hn]
  rfl

theorem filing_eq_self {index : OrderedMap String (OrderedSet VertexId)} {type : String}
    (hm : id ∈ ((index.get? type).getD .empty).elems) : filing index type id = index := by
  unfold filing
  cases hg : index.get? type with
  | none => simp [hg, OrderedSet.empty] at hm
  | some bucket =>
    rw [hg, Option.getD_some] at hm
    rw [Option.getD_some, OrderedSet.insert, dif_pos hm, OrderedMap.insert_eq_self hg]

/-- Writing a property is writing the whole record anew: the vertex is in the bucket of its type
already. -/
theorem WellFormed.perform_setProperty_present (h : s.WellFormed) (hv : s.vertex? id = some v)
    {key : String} (hk : key ∉ reservedKeys) (value : Value) :
    s.perform (.setProperty id key value) =
      .ok ⟨s.stored (v.written key value), .done, some (.updateNode v (v.written key value))⟩ := by
  have hid : v.id = id := h.own_id id v hv
  have hf : filing s.typeIndex v.type id = s.typeIndex := filing_eq_self (h.indexed id v hv)
  have hc : ¬ reservedKeys.contains key = true := by simpa using hk
  rw [perform, setProperty, if_neg hc, hv]
  simp only [Except.map, Store.stored, opened, Vertex.written, hid, hasVertex_of_vertex? hv,
    ↓reduceIte, hf]

theorem perform_removeVertex_absent (hn : s.vertex? id = none) :
    s.perform (.removeVertex id) = .error (.missingVertex id) := by
  rw [perform, removeVertex, hn]
  rfl

theorem WellFormed.perform_removeVertex_present (h : s.WellFormed) (hv : s.vertex? id = some v) :
    s.perform (.removeVertex id) =
      .ok ⟨s.without id v.type, .removed (s.incidentEdges id),
        some (.deleteNode v (s.incidentEdges id))⟩ := by
  rw [perform, h.mirrored.removeVertex_eq hv]
  rfl

theorem perform_setEdge_noOrigin (ho : e.origin ∉ s.vertices.keys) :
    s.perform (.setEdge e) = .error (.missingVertex e.origin) := by
  rw [← hasVertex_iff] at ho
  rw [perform, setEdge, if_pos (by simpa using ho)]
  rfl

theorem perform_setEdge_noTarget (ho : e.origin ∈ s.vertices.keys)
    (ht : e.target ∉ s.vertices.keys) :
    s.perform (.setEdge e) = .error (.missingVertex e.target) := by
  rw [← hasVertex_iff] at ho ht
  rw [perform, setEdge, if_neg (by simpa using ho), if_pos (by simpa using ht)]
  rfl

/-- Between two vertices an edge is new or there already. -/
theorem perform_setEdge_of_mem (ho : e.origin ∈ s.vertices.keys) (ht : e.target ∈ s.vertices.keys)
    (hk : e.origin ∈ s.outgoing.keys) :
    s.perform (.setEdge e) =
      if s.hasEdge e then .ok ⟨s, .changed false, none⟩
      else .ok ⟨s.linked e, .changed true, some (.makeEdge e)⟩ := by
  have hout : s.outgoing.get? e.origin = some (s.outgoingOf e.origin) := by
    obtain ⟨a, ha⟩ := s.outgoing.mem_keys_iff.mp hk
    rw [outgoingOf, ha, Option.getD_some]
  have hl : s.link e = if s.hasEdge e then (s, false) else (s.linked e, true) := by
    rw [link, hout]
    rfl
  rw [← hasVertex_iff] at ho ht
  rw [perform, setEdge, if_neg (by simpa using ho), if_neg (by simpa using ht), hl]
  split <;> rfl

theorem WellFormed.perform_setEdge (h : s.WellFormed) (ho : e.origin ∈ s.vertices.keys)
    (ht : e.target ∈ s.vertices.keys) :
    s.perform (.setEdge e) =
      if s.hasEdge e then .ok ⟨s, .changed false, none⟩
      else .ok ⟨s.linked e, .changed true, some (.makeEdge e)⟩ :=
  perform_setEdge_of_mem ho ht (h.outgoing_keys ▸ ho)

theorem WellFormed.perform_removeEdge (h : s.WellFormed) (e : Edge) :
    s.perform (.removeEdge e) =
      if s.hasEdge e then
        .ok ⟨s.restrict (fun x => decide (x ≠ e)), .changed true, some (.deleteEdge e)⟩
      else .ok ⟨s, .changed false, none⟩ := by
  by_cases he : s.hasEdge e = true
  · have hu : s.unlink e = (s.restrict (fun x => decide (x ≠ e)), true) :=
      Prod.ext (h.mirrored.unlink_eq e) (by rw [unlink, if_pos he])
    rw [perform, removeEdge, hu, if_pos he]
    rfl
  · rw [perform, removeEdge, unlink, if_neg he, if_neg he]
    rfl

theorem WellFormed.perform_effect (h : s.WellFormed) (hm : s.perform m = .ok o) :
    Effect s m o := by
  cases m with
  | setVertex id type properties =>
    cases hv : s.vertex? id with
    | none =>
      rw [perform_setVertex_absent hv] at hm
      cases hm
      exact .created _ (Vertex.clean_cleaned id type properties) hv
    | some v =>
      rw [perform_setVertex_present hv] at hm
      cases hm
      refine .updated v _ (Vertex.clean_cleaned id type properties) hv ?_
      intro hk
      simpa [keepsType, vertexType?, hv, Vertex.cleaned] using hk
  | setProperty id key value =>
    by_cases hk : key ∈ reservedKeys
    · rw [perform_setProperty_reserved s id hk] at hm
      cases hm
    · cases hv : s.vertex? id with
      | none =>
        rw [perform_setProperty_absent hv hk] at hm
        cases hm
      | some v =>
        rw [h.perform_setProperty_present hv hk] at hm
        cases hm
        obtain rfl := h.own_id id v hv
        exact .updated v (v.written key value) ((h.clean _ v hv).written hk value) hv (fun _ => rfl)
  | removeVertex id =>
    cases hv : s.vertex? id with
    | none =>
      rw [perform_removeVertex_absent hv] at hm
      cases hm
    | some v =>
      rw [h.perform_removeVertex_present hv] at hm
      cases hm
      obtain rfl := h.own_id id v hv
      exact .removed v hv
  | setEdge e =>
    by_cases ho : e.origin ∈ s.vertices.keys
    · by_cases ht : e.target ∈ s.vertices.keys
      · rw [h.perform_setEdge ho ht] at hm
        split at hm
        · cases hm
          exact .unchanged
        · next hn =>
          cases hm
          exact .made e ho ht (by simpa using hn)
      · rw [perform_setEdge_noTarget ho ht] at hm
        cases hm
    · rw [perform_setEdge_noOrigin ho] at hm
      cases hm
  | removeEdge e =>
    rw [h.perform_removeEdge] at hm
    split at hm
    · next he =>
      cases hm
      exact .deleted e he
    · cases hm
      exact .unchanged

theorem Effect.wellFormed (he : Effect s m o) (h : s.WellFormed) : o.store.WellFormed := by
  cases he with
  | created v clean _ => exact h.stored clean
  | updated _ v clean _ _ => exact h.stored clean
  | removed v _ => exact h.without v.id v.type
  | made e origin target absent => exact h.linked origin target absent
  | deleted e _ => exact h.restrict (fun x => decide (x ≠ e))
  | unchanged => exact h

/-- A call that succeeds performs a mutation or does nothing at all. -/
theorem call_cases {c : Call} (hc : s.call c = .ok o) :
    (∃ m, s.mutation? c = some m ∧ s.perform m = .ok o) ∨
      s.mutation? c = none ∧ o = ⟨s, .done, none⟩ := by
  cases c with
  | perform m => exact Or.inl ⟨m, rfl, hc⟩
  | apply event =>
    rw [call, apply] at hc
    cases hm : s.mutationOf? event with
    | none =>
      rw [hm] at hc
      cases hc
      exact Or.inr ⟨hm, rfl⟩
    | some m =>
      rw [hm] at hc
      exact Or.inl ⟨m, hm, hc⟩

/-- Behind a call the store is as it was, or as a mutation left it. -/
theorem after_cases (s : Store) (c : Call) :
    s.after c = s ∨
      ∃ m o, s.mutation? c = some m ∧ s.perform m = .ok o ∧ s.after c = o.store := by
  unfold Store.after
  split
  · next o hc =>
    rcases call_cases hc with ⟨m, hm, ho⟩ | ⟨_, rfl⟩
    · exact Or.inr ⟨m, o, hm, ho, rfl⟩
    · exact Or.inl rfl
  · exact Or.inl rfl

theorem WellFormed.after (h : s.WellFormed) (c : Call) : (s.after c).WellFormed := by
  rcases s.after_cases c with he | ⟨m, o, _, ho, he⟩
  · rwa [he]
  · rw [he]
    exact (h.perform_effect ho).wellFormed h

theorem WellFormed.run (h : s.WellFormed) (calls : List Call) : (s.run calls).WellFormed := by
  unfold Store.run
  induction calls generalizing s with
  | nil => exact h
  | cons c rest ih => exact ih (h.after c)

section Keeping

variable {P : Store → Prop}
  (hstep : ∀ {s m o}, Effect s m o → s.keepsType m = true → P s → P o.store)
include hstep

theorem WellFormed.after_keeps (h : s.WellFormed) {c : Call}
    (hk : (s.mutation? c).all s.keepsType = true) (hp : P s) : P (s.after c) := by
  rcases s.after_cases c with he | ⟨m, o, hm, ho, he⟩
  · rwa [he]
  · rw [hm] at hk
    rw [he]
    exact hstep (h.perform_effect ho) hk hp

/-- What a change preserves as long as it gives no present vertex another type holds behind a run
of such changes. -/
theorem WellFormed.run_keeps (h : s.WellFormed) {calls : List Call}
    (hk : s.keepsTypes calls = true) (hp : P s) : P (s.run calls) := by
  unfold Store.run
  induction calls generalizing s with
  | nil => exact hp
  | cons c rest ih =>
    rw [keepsTypes, Bool.and_eq_true] at hk
    exact ih (h.after c) hk.2 (h.after_keeps hstep hk.1 hp)

end Keeping

end Store

end PropertyGraph
