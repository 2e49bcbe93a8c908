import PropertyGraph.Proofs.Mirror
import PropertyGraph.Proofs.Rewiring

namespace PropertyGraph

/-- The edge from an owner to a target, and the edge back if the connection has a mirror. -/
def Connection.Joins (c : Connection) (owner target : VertexId) (e : Edge) : Prop :=
  e = ⟨owner, target, c.name⟩ ∨ ∃ m, c.mirror = some m ∧ e = ⟨target, owner, m⟩

/-- An employee has a boss, whose staff includes the employee, and peers. -/
def Model.employee : Model :=
  ((Model.ofType "Employee").connection "boss" ⟨"", false, false, some "staff"⟩).connection
    "peers" ⟨"", true, true, none⟩

/-- Three employees, of whom the first has the second for a boss, a fourth who has left, and a
sink that records. -/
def Workspace.office : Workspace :=
  ⟨[⟨Store.empty.run [.perform (.setVertex "v1" "Employee" []),
      .perform (.setVertex "v2" "Employee" []), .perform (.setVertex "v3" "Employee" []),
      .perform (.setVertex "v4" "Employee" []), .perform (.setEdge ⟨"v1", "v2", "boss"⟩),
      .perform (.setEdge ⟨"v2", "v1", "staff"⟩), .perform (.removeVertex "v4")], [0]⟩],
    [⟨[], none, 0⟩], [⟨0, .ofList [("Employee", .employee)], .sequential "v", 4⟩],
    countedUuid⟩

theorem Workspace.attained_office : (office.store 0).Attained := Store.Attained.empty.run _

namespace Instance

variable {w w' : Workspace} {i x : Instance} {c : Connection} {g : GraphId} {s : Store}
  {edges : Finset Edge} {t : VertexId} {e : Error}

/-- After a call the models are as they were, and the store behind the instance has these edges. -/
structure Redraws (i : Instance) (w : Workspace) (edges : Finset Edge) (w' : Workspace) : Prop where
  registries : w'.registries = w.registries
  redrawn : (i.store w).Redrawn edges (i.store w')

theorem mem_targets : t ∈ i.targets w c ↔ (i.store w).hasEdge ⟨i.id, t, c.name⟩ = true := by
  simp only [targets, List.mem_map, List.mem_filter, Store.mem_outEdges, decide_eq_true_eq]
  constructor
  · rintro ⟨⟨origin, target, type⟩, ⟨⟨he, rfl⟩, rfl⟩, rfl⟩
    exact he
  · intro he
    exact ⟨⟨i.id, t, c.name⟩, ⟨⟨he, rfl⟩, rfl⟩, rfl⟩

theorem nodup_targets (h : (i.store w).Mirrored) : (i.targets w c).Nodup := by
  refine List.Nodup.map_on ?_ ((h.nodup_outEdges i.id).filter _)
  rintro ⟨a, t, c₁⟩ ha ⟨b, u, c₂⟩ hb rfl
  simp only [List.mem_filter, Store.mem_outEdges, decide_eq_true_eq] at ha hb
  obtain ⟨⟨-, rfl⟩, rfl⟩ := ha
  obtain ⟨⟨-, rfl⟩, rfl⟩ := hb
  rfl

theorem exists?_iff : i.exists? w = true ↔ i.id ∈ (i.store w).vertices.keys := Store.hasVertex_iff

/-- An instance that is recognized views the same store. -/
theorem store_of_recognizes (h : i.recognizes w x = true) : x.store w = i.store w := by
  rw [recognizes, Bool.and_eq_true, beq_iff_eq] at h
  rw [store, store, h.1]

theorem check_of_recognizes (h : i.recognizes w x = true) : i.check w x = .ok () := if_pos h

theorem check_of_not_recognizes (h : i.recognizes w x = false) :
    i.check w x = .error (.foreignInstance x.model.type x.id) := by
  rw [check, h]
  rfl

theorem graph_of_registries (h : w'.registries = w.registries) (j : Instance) :
    j.graph w' = j.graph w := by
  rw [graph, graph, Workspace.graphOf, Workspace.registry, h]
  rfl

/-- Mutations leave the registries alone, so the instance views the graph that they are of. -/
theorem redraws_of_performAll {ms : List Mutation} {result : Except Error Unit}
    (hw : w.performAll (i.graph w) ms = (w', result))
    (h : w'.Holds (i.graph w) ((i.store w).Redrawn edges)) : i.Redraws w edges w' := by
  have hregistries : w'.registries = w.registries := by
    rw [← w.registries_performAll (i.graph w) ms, hw]
  refine ⟨hregistries, ?_⟩
  have hstore := h.store
  rwa [← graph_of_registries hregistries] at hstore

theorem Redraws.mem_targets (h : i.Redraws w edges w') :
    t ∈ i.targets w' c ↔ ⟨i.id, t, c.name⟩ ∈ edges := by
  rw [Instance.mem_targets, h.redrawn.hasEdge]

theorem Redraws.nodup_targets (h : i.Redraws w edges w') : (i.targets w' c).Nodup :=
  Instance.nodup_targets h.redrawn.wired.mirrored

theorem holds_redrawn (h : (i.store w).Wired) (hi : i.exists? w = true) :
    w.Holds (i.graph w) ((i.store w).Redrawn (i.store w).outline.edges) :=
  ⟨Workspace.lt_length_of_mem_keys (exists?_iff.mp hi), h.redrawn⟩

section Mutations

theorem linking_ok (h : w.Holds g (s.Redrawn edges)) (hi : i.id ∈ s.vertices.keys)
    (ht : t ∈ s.vertices.keys) :
    ∃ w', w.performAll g (i.linking c t) = (w', .ok ())
      ∧ w'.Holds g (s.Redrawn (edges ∪ (c.edges i.id t).toFinset)) := by
  apply h.setEdges
  intro e he
  rcases Connection.mem_edges.mp he with rfl | ⟨m, _, rfl⟩
  · exact ⟨hi, ht⟩
  · exact ⟨ht, hi⟩

theorem unlinking_ok (h : w.Holds g (s.Redrawn edges)) (ts : List VertexId) :
    ∃ w', w.performAll g (ts.flatMap (i.unlinking c)) = (w', .ok ())
      ∧ w'.Holds g (s.Redrawn (edges \ (ts.flatMap (c.edges i.id)).toFinset)) := by
  rw [flatMap_unlinking]
  exact h.removeEdges _

theorem replacing_ok (h : w.Holds g (s.Redrawn edges)) (hi : i.id ∈ s.vertices.keys)
    (ht : t ∈ s.vertices.keys) (ts : List VertexId) :
    ∃ w', w.performAll g (ts.flatMap (i.unlinking c) ++ i.linking c t) = (w', .ok ())
      ∧ w'.Holds g (s.Redrawn (edges \ (ts.flatMap (c.edges i.id)).toFinset
        ∪ (c.edges i.id t).toFinset)) := by
  obtain ⟨w₁, hw₁, h₁⟩ := unlinking_ok (i := i) (c := c) h ts
  rw [Workspace.performAll_append hw₁]
  exact linking_ok h₁ hi ht

/-- Without the owner the first edge fails. -/
theorem linking_noOwner (hi : i.id ∉ (w.store g).vertices.keys) (t : VertexId) :
    w.performAll g (i.linking c t) = (w, .error (.missingVertex i.id)) :=
  Workspace.performAll_setEdge_noOrigin (e := ⟨i.id, t, c.name⟩) hi _

theorem linking_noTarget (hi : i.id ∈ (w.store g).vertices.keys)
    (ht : t ∉ (w.store g).vertices.keys) :
    w.performAll g (i.linking c t) = (w, .error (.missingVertex t)) :=
  Workspace.performAll_setEdge_noTarget (e := ⟨i.id, t, c.name⟩) hi ht _

/-- Connecting fails before it has written anything. -/
theorem eq_of_linking_error (hs : (w.store g).Wired)
    (h : w.performAll g (i.linking c t) = (w', .error e)) : w' = w := by
  -- The edge back has the same two ends, so it is missed no later than with the first edge.
  by_cases hi : i.id ∈ (w.store g).vertices.keys
  · by_cases ht : t ∈ (w.store g).vertices.keys
    · have hg := Workspace.lt_length_of_mem_keys hi
      obtain ⟨w₁, hw₁, -⟩ := linking_ok (c := c) ⟨hg, hs.redrawn⟩ hi ht
      rw [hw₁] at h
      cases h
    · rw [linking_noTarget hi ht] at h
      cases h
      rfl
  · rw [linking_noOwner hi] at h
    cases h
    rfl

theorem unlinking_never_fails (w : Workspace) (i : Instance) (c : Connection) (g : GraphId)
    (ts : List VertexId) : (w.performAll g (ts.flatMap (i.unlinking c))).2 = .ok () := by
  rw [flatMap_unlinking]
  exact w.performAll_removeEdges_ok g _

end Mutations

/-- Without its vertex an instance has no targets. -/
theorem targets_eq_nil (h : (i.store w).Wired) (hi : i.id ∉ (i.store w).vertices.keys) :
    i.targets w c = [] := by
  rw [targets, h.outEdges_eq_nil hi]
  rfl

section Calls

variable (h : (i.store w).Wired) (hi : i.exists? w = true)
include h hi

theorem clear_ok :
    ∃ w', i.clear w c = (w', .ok ()) ∧ i.Redraws w ((i.store w).outline.edges
      \ ((i.targets w c).flatMap (c.edges i.id)).toFinset) w' := by
  obtain ⟨w₁, hw₁, h₁⟩ := unlinking_ok (i := i) (c := c) (holds_redrawn h hi) (i.targets w c)
  exact ⟨w₁, hw₁, redraws_of_performAll hw₁ h₁⟩

theorem removeMember_ok (hr : i.recognizes w x = true) :
    ∃ w', i.removeMember w c x = (w', .ok ()) ∧ i.Redraws w ((i.store w).outline.edges
      \ (c.edges i.id x.id).toFinset) w' := by
  obtain ⟨w₁, hw₁, h₁⟩ := unlinking_ok (i := i) (c := c) (holds_redrawn h hi) [x.id]
  rw [List.flatMap_singleton] at hw₁ h₁
  refine ⟨w₁, ?_, redraws_of_performAll hw₁ h₁⟩
  simp only [removeMember, check_of_recognizes hr, hw₁]

theorem add_ok (hr : i.recognizes w x = true) (hx : x.exists? w = true) :
    ∃ w', i.add w c x = (w', .ok ()) ∧ i.Redraws w ((i.store w).outline.edges
      ∪ (c.edges i.id x.id).toFinset) w' := by
  rw [exists?_iff, store_of_recognizes hr] at hx
  obtain ⟨w₁, hw₁, h₁⟩ := linking_ok (c := c) (holds_redrawn h hi) (exists?_iff.mp hi) hx
  refine ⟨w₁, ?_, redraws_of_performAll hw₁ h₁⟩
  simp only [add, check_of_recognizes hr, hw₁]

/-- With both vertices there, the target replaces the others. -/
theorem setTarget_ok (hr : i.recognizes w x = true) (hx : x.exists? w = true) :
    ∃ w', i.setTarget w c (some x) = (w', .ok ()) ∧ i.Redraws w ((i.store w).outline.edges
      \ (((i.targets w c).filter (fun t => t ≠ x.id)).flatMap (c.edges i.id)).toFinset
      ∪ (c.edges i.id x.id).toFinset) w' := by
  rw [exists?_iff, store_of_recognizes hr] at hx
  obtain ⟨w₁, hw₁, h₁⟩ := replacing_ok (i := i) (c := c) (holds_redrawn h hi)
    (exists?_iff.mp hi) hx ((i.targets w c).filter (fun t => t ≠ x.id))
  refine ⟨w₁, ?_, redraws_of_performAll hw₁ h₁⟩
  simp only [setTarget, check_of_recognizes hr, replacing, hw₁]

/-- A target that is gone is found missing once the connection has let go of all it had. -/
theorem setTarget_gone (hr : i.recognizes w x = true) (hx : x.exists? w = false) :
    i.setTarget w c (some x) = ((i.clear w c).1, .error (.missingVertex x.id)) := by
  rw [exists?, store_of_recognizes hr, Bool.eq_false_iff, ne_eq, Store.hasVertex_iff] at hx
  have hall : (i.targets w c).filter (fun t => t ≠ x.id) = i.targets w c := by
    rw [List.filter_eq_self]
    intro t ht
    rw [decide_eq_true_eq]
    rintro rfl
    exact hx (h.ends (mem_targets.mp ht)).2
  obtain ⟨w₁, hw₁, h₁⟩ := unlinking_ok (i := i) (c := c) (holds_redrawn h hi) (i.targets w c)
  have hfails : w₁.performAll (i.graph w) (i.linking c x.id) =
      (w₁, .error (.missingVertex x.id)) := by
    apply linking_noTarget
    · exact (h₁.store.mem_keys i.id).mpr (exists?_iff.mp hi)
    · rwa [h₁.store.mem_keys]
  simp only [setTarget, check_of_recognizes hr]
  rw [replacing, hall, Workspace.performAll_append hw₁, hfails, clear, clearing, hw₁]

end Calls

section Failures

theorem eq_of_add_error (h : (i.store w).Wired) (hadd : i.add w c x = (w', .error e)) :
    w' = w := by
  unfold add at hadd
  split at hadd
  · cases hadd
    rfl
  · exact eq_of_linking_error h hadd

theorem eq_of_removeMember_error (hremove : i.removeMember w c x = (w', .error e)) : w' = w := by
  unfold removeMember at hremove
  split at hremove
  · cases hremove
    rfl
  · have hok := unlinking_never_fails w i c (i.graph w) [x.id]
    rw [List.flatMap_singleton, hremove] at hok
    cases hok

theorem clear_never_fails : (i.clear w c).2 = .ok () :=
  unlinking_never_fails w i c (i.graph w) (i.targets w c)

/-- Without its vertex an instance lets go of nothing, and connecting fails. -/
theorem eq_of_setTarget_noOwner (h : (i.store w).Wired) (hi : i.exists? w = false)
    (hset : i.setTarget w c (some x) = (w', .error e)) : w' = w := by
  rw [Bool.eq_false_iff, ne_eq, exists?_iff] at hi
  unfold setTarget at hset
  dsimp only at hset
  split at hset
  · cases hset
    rfl
  · rw [replacing, targets_eq_nil h hi] at hset
    exact eq_of_linking_error h hset

theorem eq_of_setTarget_foreign (hr : i.recognizes w x = false)
    (hset : i.setTarget w c (some x) = (w', .error e)) : w' = w := by
  simp only [setTarget, check_of_not_recognizes hr] at hset
  cases hset
  rfl

theorem setTarget_error (h : (i.store w).Wired) {target : Option Instance}
    (hset : i.setTarget w c target = (w', .error e)) :
    w' = w ∨ ∃ x, target = some x ∧ e = .missingVertex x.id ∧ i.recognizes w x = true
      ∧ i.exists? w = true ∧ x.exists? w = false ∧ w' = (i.clear w c).1 := by
  cases target with
  | none =>
    have hok := clear_never_fails (w := w) (i := i) (c := c)
    rw [← setTarget, hset] at hok
    cases hok
  | some x =>
    cases hr : i.recognizes w x with
    | false => exact Or.inl (eq_of_setTarget_foreign hr hset)
    | true =>
      cases hi : i.exists? w with
      | false => exact Or.inl (eq_of_setTarget_noOwner h hi hset)
      | true =>
        cases hx : x.exists? w with
        | false =>
          rw [setTarget_gone h hi hr hx] at hset
          cases hset
          exact Or.inr ⟨x, rfl, rfl, hr, rfl, hx, rfl⟩
        | true =>
          obtain ⟨w₁, hw₁, -⟩ := setTarget_ok (c := c) h hi hr hx
          rw [hw₁] at hset
          cases hset

end Failures

/-- A call on a connection that fails has changed nothing at all, but for one case: a single
connection that is given a recognized target whose vertex is gone fails for that vertex, and is
left cleared. -/
theorem failed_call_changes_nothing_or_clears (i : Instance) (c : Connection)
    (h : (i.store w).Attained) :
    (∀ x w' e, i.add w c x = (w', .error e) → w' = w)
      ∧ (∀ x w' e, i.removeMember w c x = (w', .error e) → w' = w)
      ∧ (∀ target w' e, i.setTarget w c target = (w', .error e) → w' = w ∨
        ∃ x, target = some x ∧ e = .missingVertex x.id ∧ i.recognizes w x = true
          ∧ i.exists? w = true ∧ x.exists? w = false ∧ w' = (i.clear w c).1)
      ∧ ∀ x, i.recognizes w x = true → i.exists? w = true → x.exists? w = false →
        i.setTarget w c (some x) = ((i.clear w c).1, .error (.missingVertex x.id)) := by
  have hs := h.wired
  refine ⟨?_, ?_, ?_, ?_⟩
  · intro x w' e hadd
    exact eq_of_add_error hs hadd
  · intro x w' e hremove
    exact eq_of_removeMember_error hremove
  · intro target w' e hset
    exact setTarget_error hs hset
  · intro x hr hi hx
    exact setTarget_gone hs hi hr hx

/-- The first employee has the boss and the edge back deleted for one who has left. -/
theorem boss_is_lost_for_one_who_left :
    let employee : Instance := ⟨0, "v1", .employee⟩
    let left : Instance := ⟨0, "v4", .employee⟩
    let boss : Connection := ⟨"boss", false, false, some "staff"⟩
    let result := employee.setTarget .office boss (some left)
    (employee.store .office).Attained ∧ employee.single "boss" = .ok boss
      ∧ result.2 = .error (.missingVertex "v4")
      ∧ (employee.store .office).hasEdge ⟨"v1", "v2", "boss"⟩ = true
      ∧ (employee.store result.1).hasEdge ⟨"v1", "v2", "boss"⟩ = false
      ∧ (Workspace.office.sink 0).journal.length = 0 ∧ (result.1.sink 0).journal.length = 2 := by
  intro employee left boss result
  exact ⟨Workspace.attained_office, rfl, rfl, by decide, by decide, rfl, by decide⟩

theorem one_who_left_clears_boss :
    let employee : Instance := ⟨0, "v1", .employee⟩
    let left : Instance := ⟨0, "v4", .employee⟩
    let boss : Connection := ⟨"boss", false, false, some "staff"⟩
    (employee.store .office).Attained ∧
      employee.setTarget .office boss (some left) =
        ((employee.clear .office boss).1, .error (.missingVertex "v4")) := by
  intro employee left boss
  obtain ⟨-, -, -, hgone⟩ :=
    failed_call_changes_nothing_or_clears employee boss Workspace.attained_office
  exact ⟨Workspace.attained_office, hgone left rfl rfl rfl⟩

theorem mem_flatMap_edges {ts : List VertexId} {e : Edge} :
    e ∈ (ts.flatMap (c.edges i.id)).toFinset ↔ ∃ t ∈ ts, c.Joins i.id t e := by
  simp only [List.mem_toFinset, List.mem_flatMap, Connection.mem_edges]
  rfl

section Edges

variable (h : (i.store w).Wired) {e : Edge}
include h

theorem mem_cleared :
    e ∈ (i.store w).outline.edges \ ((i.targets w c).flatMap (c.edges i.id)).toFinset ↔
      (i.store w).hasEdge e = true ∧ ¬ ∃ t ∈ i.targets w c, c.Joins i.id t e := by
  rw [Finset.mem_sdiff, h.mem_outline_edges, mem_flatMap_edges]

theorem mem_replaced :
    e ∈ (i.store w).outline.edges
        \ (((i.targets w c).filter (fun t => t ≠ x.id)).flatMap (c.edges i.id)).toFinset
        ∪ (c.edges i.id x.id).toFinset ↔
      ((i.store w).hasEdge e = true
        ∧ ¬ ∃ t ∈ i.targets w c, t ≠ x.id ∧ c.Joins i.id t e) ∨ c.Joins i.id x.id e := by
  rw [Finset.mem_union, Finset.mem_sdiff, h.mem_outline_edges, mem_flatMap_edges,
    List.mem_toFinset, Connection.mem_edges]
  simp only [List.mem_filter, decide_eq_true_eq, and_assoc]
  rfl

end Edges

theorem Redraws.targets_eq_singleton (h : i.Redraws w edges w')
    (honly : ∀ t, ⟨i.id, t, c.name⟩ ∈ edges ↔ t = x.id) : i.targets w' c = [x.id] := by
  apply List.perm_singleton.mp
  rw [List.perm_ext_iff_of_nodup h.nodup_targets (List.nodup_singleton x.id)]
  intro t
  rw [h.mem_targets, honly, List.mem_singleton]

/-- An edge back is an edge of the connection that leaves the owner only if the owner is the
target. -/
theorem eq_target_of_joins {owner target : VertexId} (h : c.Joins owner target ⟨owner, t, c.name⟩) :
    t = target := by
  rcases h with h | ⟨m, _, h⟩
  · exact congrArg Edge.target h
  · exact (congrArg Edge.target h).trans (congrArg Edge.origin h)

/-- A single connection is exclusive. Giving it a recognized target takes away exactly the edges to
its other targets and the edges back from them, and puts in exactly the edge to the new target and
the edge back from it, which leaves that target alone. Clearing it takes away exactly the edges to
its targets and the edges back. Neither fails. -/
theorem single_connection_is_exclusive (c : Connection) (h : (i.store w).Attained)
    (hr : i.recognizes w x = true) (hi : i.exists? w = true) (hx : x.exists? w = true) :
    (∃ w', i.setTarget w c (some x) = (w', .ok ())
      ∧ (∀ e, (i.store w').hasEdge e = true ↔
        ((i.store w).hasEdge e = true
          ∧ ¬ ∃ t ∈ i.targets w c, t ≠ x.id ∧ c.Joins i.id t e) ∨ c.Joins i.id x.id e)
      ∧ i.targets w' c = [x.id])
    ∧ i.setTarget w c none = i.clear w c
    ∧ ∃ w', i.clear w c = (w', .ok ())
      ∧ (∀ e, (i.store w').hasEdge e = true ↔
        (i.store w).hasEdge e = true ∧ ¬ ∃ t ∈ i.targets w c, c.Joins i.id t e)
      ∧ i.targets w' c = [] := by
  have hs := h.wired
  refine ⟨?_, rfl, ?_⟩
  · obtain ⟨w₁, hw₁, h₁⟩ := setTarget_ok (c := c) hs hi hr hx
    refine ⟨w₁, hw₁, fun e => ?_, h₁.targets_eq_singleton (fun t => ?_)⟩
    · rw [h₁.redrawn.hasEdge, mem_replaced hs]
    · rw [mem_replaced hs, ← mem_targets]
      constructor
      · rintro (⟨ht, hkept⟩ | hjoined)
        · by_contra hne
          exact hkept ⟨t, ht, hne, Or.inl rfl⟩
        · exact eq_target_of_joins hjoined
      · rintro rfl
        exact Or.inr (Or.inl rfl)
  · obtain ⟨w₁, hw₁, h₁⟩ := clear_ok (c := c) hs hi
    refine ⟨w₁, hw₁, fun e => ?_, ?_⟩
    · rw [h₁.redrawn.hasEdge, mem_cleared hs]
    · rw [List.eq_nil_iff_forall_not_mem]
      intro t ht
      rw [h₁.mem_targets, mem_cleared hs, ← mem_targets] at ht
      exact ht.2 ⟨t, ht.1, Or.inl rfl⟩

/-- The first employee gets another boss, who takes the place of the former one at both ends. -/
theorem employee_changes_boss :
    let employee : Instance := ⟨0, "v1", .employee⟩
    let next : Instance := ⟨0, "v3", .employee⟩
    let boss : Connection := ⟨"boss", false, false, some "staff"⟩
    (employee.store .office).Attained ∧ employee.recognizes .office next = true
      ∧ employee.exists? .office = true ∧ next.exists? .office = true
      ∧ ∃ w', employee.setTarget .office boss (some next) = (w', .ok ())
        ∧ employee.targets w' boss = ["v3"]
        ∧ (employee.store w').hasEdge ⟨"v3", "v1", "staff"⟩ = true
        ∧ (employee.store w').hasEdge ⟨"v2", "v1", "staff"⟩ = false := by
  intro employee next boss
  obtain ⟨⟨w', hset, hedge, htargets⟩, -, -⟩ := single_connection_is_exclusive (i := employee)
    (x := next) boss Workspace.attained_office rfl rfl rfl
  refine ⟨Workspace.attained_office, rfl, rfl, rfl, w', hset, htargets, ?_, ?_⟩
  · exact (hedge _).mpr (Or.inr (Or.inr ⟨"staff", rfl, rfl⟩))
  · rw [Bool.eq_false_iff, ne_eq, hedge]
    rintro (⟨-, hkept⟩ | hjoined)
    · exact hkept ⟨"v2", by decide, by decide, Or.inr ⟨"staff", rfl, rfl⟩⟩
    · simp [Connection.Joins, employee, next] at hjoined

end Instance

end PropertyGraph
