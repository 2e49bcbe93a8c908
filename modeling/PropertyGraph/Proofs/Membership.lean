import PropertyGraph.Proofs.Connecting

namespace PropertyGraph

/-- Every record lies under its own id. -/
def Store.Named (s : Store) : Prop := ∀ id v, s.vertex? id = some v → v.id = id

/-- Whether a vertex is there, with a type that is registered. -/
def Workspace.isViewable (w : Workspace) (r : RegistryId) (id : VertexId) : Bool :=
  ((w.store (w.graphOf r)).vertexType? id).any (w.isRegistered r)

/-- How often the vertex of an instance is among the members of a collection. -/
def Instance.appearances (w : Workspace) (i : Instance) (c : Connection) (x : Instance) : Nat :=
  (i.members w c).countP (fun y => y.same w x)

theorem Store.vertexType?_eq_label? (s : Store) (id : VertexId) :
    s.vertexType? id = (s.label? id).map Prod.snd := by
  rw [vertexType?, label?, Option.map_map]
  rfl

theorem Store.Redrawn.named {s t : Store} {edges : Finset Edge} (h : s.Redrawn edges t)
    (hn : s.Named) : t.Named := by
  intro id v hv
  have hlabel : s.label? id = some (v.id, v.type) := by
    rw [← h.label, label?, hv]
    rfl
  obtain ⟨u, hu, heq⟩ := Option.map_eq_some_iff.mp hlabel
  exact (congrArg Prod.fst heq).symm.trans (hn id u hu)

namespace Instance

variable {w w' : Workspace} {i x : Instance} {c : Connection} {edges : Finset Edge}

/-- Whatever its model's factory made of it, an instance of the same registry is recognized while
the type of its model is registered. -/
theorem recognizes_of_registered (hx : x.registry = i.registry)
    (hm : w.isRegistered i.registry x.model.type = true) : i.recognizes w x = true := by
  rw [recognizes, graph, graph, hx, hm, Bool.and_true, beq_self_eq_true]

theorem graph_of_recognizes (hr : i.recognizes w x = true) : i.graph w = x.graph w := by
  rw [recognizes, Bool.and_eq_true, beq_iff_eq] at hr
  exact hr.1

theorem has_of_recognizes (hr : i.recognizes w x = true) :
    i.has w c x = .ok ((i.store w).hasEdge ⟨i.id, x.id, c.name⟩) := by
  rw [has, check_of_recognizes hr]
  rfl

theorem isSome_instanceOfId? (w : Workspace) (r : RegistryId) (t : VertexId) :
    (w.instanceOfId? r t).isSome = w.isViewable r t := by
  unfold Workspace.instanceOfId? Workspace.isViewable Store.vertexType?
  cases (w.store (w.graphOf r)).vertex? t with
  | none => rfl
  | some v => simp [Workspace.instanceOf?, Workspace.isRegistered]

/-- A target is viewed as what it is, not as another vertex. -/
theorem eq_of_instanceOfId? (hn : (i.store w).Named) {t : VertexId} {y : Instance}
    (hy : w.instanceOfId? i.registry t = some y) : y.registry = i.registry ∧ y.id = t := by
  obtain ⟨v, hv, hm⟩ := Option.bind_eq_some_iff.mp hy
  obtain ⟨m, -, rfl⟩ := Option.map_eq_some_iff.mp hm
  exact ⟨rfl, hn t v hv⟩

theorem viewed_same (hn : (i.store w).Named) (hx : i.graph w = x.graph w) (t : VertexId) :
    ((w.instanceOfId? i.registry t).map (fun y => y.same w x)).getD false =
      (t == x.id && w.isViewable i.registry x.id) := by
  cases hy : w.instanceOfId? i.registry t with
  | none =>
    by_cases ht : t = x.id
    · simp [← ht, ← isSome_instanceOfId?, hy]
    · simp [ht]
  | some y =>
    obtain ⟨hreg, hid⟩ := eq_of_instanceOfId? hn hy
    have hgraph : y.graph w = x.graph w := by
      rw [← hx, graph, graph, hreg]
    by_cases ht : t = x.id
    · simp [← ht, ← isSome_instanceOfId?, hy, same, hid, hgraph]
    · simp [same, hid, beq_eq_false_iff_ne.mpr ht]

/-- A vertex is among the members once, if it is joined and can be viewed. -/
theorem appearances_eq (h : (i.store w).Mirrored) (hn : (i.store w).Named)
    (hx : i.graph w = x.graph w) :
    i.appearances w c x =
      if (i.store w).hasEdge ⟨i.id, x.id, c.name⟩ && w.isViewable i.registry x.id then 1
      else 0 := by
  rw [appearances, members, List.countP_filterMap]
  simp only [viewed_same hn hx]
  cases w.isViewable i.registry x.id with
  | false => simp
  | true =>
    simp only [Bool.and_true, ← mem_targets]
    exact (nodup_targets h).count

section Calls

theorem model?_of_registries (h : w'.registries = w.registries) (r : RegistryId) (type : String) :
    w'.model? r type = w.model? r type := by
  rw [Workspace.model?, Workspace.registry, h]
  rfl

variable (h : i.Redraws w edges w')
include h

theorem Redraws.recognizes : i.recognizes w' x = i.recognizes w x := by
  simp only [Instance.recognizes, graph_of_registries h.registries, Workspace.isRegistered,
    model?_of_registries h.registries]

theorem Redraws.isViewable (id : VertexId) :
    w'.isViewable i.registry id = w.isViewable i.registry id := by
  have htype : (i.store w').vertexType? id = (i.store w).vertexType? id := by
    rw [Store.vertexType?_eq_label?, h.redrawn.label, ← Store.vertexType?_eq_label?]
  have hregistered : w'.isRegistered i.registry = w.isRegistered i.registry := by
    funext type
    simp only [Workspace.isRegistered, model?_of_registries h.registries]
  change ((i.store w').vertexType? id).any _ = ((i.store w).vertexType? id).any _
  rw [htype, hregistered]

/-- What the two views of a collection say once a call has redrawn the edges. -/
theorem Redraws.views (hn : (i.store w).Named) (hr : i.recognizes w x = true) :
    i.has w' c x = .ok (decide (⟨i.id, x.id, c.name⟩ ∈ edges))
      ∧ i.appearances w' c x =
        if decide (⟨i.id, x.id, c.name⟩ ∈ edges) && w.isViewable i.registry x.id then 1 else 0 := by
  have hr' : i.recognizes w' x = true := h.recognizes.trans hr
  have hedge : (i.store w').hasEdge ⟨i.id, x.id, c.name⟩ =
      decide (⟨i.id, x.id, c.name⟩ ∈ edges) := by
    rw [Bool.eq_iff_iff, h.redrawn.hasEdge, decide_eq_true_eq]
  constructor
  · rw [has_of_recognizes hr', hedge]
  · rw [appearances_eq h.redrawn.wired.mirrored (h.redrawn.named hn) (graph_of_recognizes hr'),
      hedge, h.isViewable]

end Calls

/-- The two views of a collection agree, on a recognized instance whose vertex can be viewed: it is
among the members once if it is a member, and otherwise not at all. To add it makes it a member, to
remove it makes it none, and neither fails. An instance whose vertex cannot be viewed can be a
member, but the members never include it. -/
theorem collection_views_agree (c : Connection) (h : (i.store w).Attained)
    (hn : (i.store w).Named) (hr : i.recognizes w x = true) (hi : i.exists? w = true)
    (hx : x.exists? w = true) :
    (∃ b, i.has w c x = .ok b
      ∧ i.appearances w c x = if b && w.isViewable i.registry x.id then 1 else 0)
    ∧ (∃ w', i.add w c x = (w', .ok ()) ∧ i.has w' c x = .ok true
      ∧ i.appearances w' c x = if w.isViewable i.registry x.id then 1 else 0)
    ∧ ∃ w', i.removeMember w c x = (w', .ok ()) ∧ i.has w' c x = .ok false
      ∧ i.appearances w' c x = 0 := by
  have hs := h.wired
  have hjoins : ⟨i.id, x.id, c.name⟩ ∈ c.edges i.id x.id := Connection.mem_edges.mpr (Or.inl rfl)
  refine ⟨⟨_, has_of_recognizes hr, ?_⟩, ?_, ?_⟩
  · exact appearances_eq hs.mirrored hn (graph_of_recognizes hr)
  · obtain ⟨w₁, hw₁, h₁⟩ := add_ok (c := c) hs hi hr hx
    exact ⟨w₁, hw₁, by simpa [hjoins] using h₁.views (c := c) hn hr⟩
  · obtain ⟨w₁, hw₁, h₁⟩ := removeMember_ok (c := c) hs hi hr
    exact ⟨w₁, hw₁, by simpa [hjoins] using h₁.views (c := c) hn hr⟩

/-- The first employee takes the third for a peer, who is then among the peers once, and lets the
peer go again. -/
theorem peers_come_and_go :
    let employee : Instance := ⟨0, "v1", .employee⟩
    let other : Instance := ⟨0, "v3", .employee⟩
    let peers : Connection := ⟨"peers", true, true, none⟩
    (employee.store .office).Attained ∧ (employee.store .office).Named
      ∧ employee.recognizes .office other = true ∧ employee.exists? .office = true
      ∧ other.exists? .office = true
      ∧ (∃ w', employee.add .office peers other = (w', .ok ())
        ∧ employee.has w' peers other = .ok true ∧ employee.appearances w' peers other = 1)
      ∧ ∃ w', employee.removeMember .office peers other = (w', .ok ())
        ∧ employee.has w' peers other = .ok false ∧ employee.appearances w' peers other = 0 := by
  intro employee other peers
  have hnamed : (employee.store .office).Named := (Store.wellFormed_empty.run _).own_id
  have hknown : employee.recognizes .office other = true := recognizes_of_registered rfl rfl
  obtain ⟨-, hadd, hremove⟩ := collection_views_agree (i := employee) (x := other) peers
    Workspace.attained_office hnamed hknown rfl rfl
  exact ⟨Workspace.attained_office, hnamed, hknown, rfl, rfl, hadd, hremove⟩

/-- A vertex of a type without model is wrapped as a person and made a friend. It is a member then,
but not among the members. -/
theorem ghost_is_friend_unseen :
    let friends : Connection := ⟨"friends", true, false, none⟩
    let person := (Model.ofType "Person").connection "friends" friends
    let w : Workspace := ⟨[⟨Store.empty.run [.perform (.setVertex "v1" "Person" []),
      .perform (.setVertex "v2" "Ghost" [])], []⟩], [],
      [⟨0, .ofList [("Person", person)], .sequential "v", 0⟩], Workspace.countedUuid⟩
    let owner : Instance := ⟨0, "v1", person⟩
    let ghost : Instance := ⟨0, "v2", person⟩
    let result := owner.add w friends ghost
    (owner.store w).WellFormed ∧ w.factory 0 "Person" = .ok person
      ∧ owner.collection "friends" = .ok friends ∧ owner.exists? w = true
      ∧ ghost.exists? w = true ∧ result.2 = .ok ()
      ∧ owner.has result.1 friends ghost = .ok true ∧ owner.members result.1 friends = [] := by
  intro friends person w owner ghost result
  exact ⟨Store.wellFormed_empty.run _, rfl, rfl, rfl, rfl, rfl, rfl, rfl⟩

end Instance

end PropertyGraph
