import PropertyGraph.Proofs.Creation

namespace PropertyGraph

theorem numbered_inj {stem : String} {a b : UInt64}
    (h : stem ++ toString a = stem ++ toString b) : a = b := by
  rw [String.append_right_inj] at h
  have hrepr : a.toNat.repr = b.toNat.repr := h
  rw [Nat.repr_eq_ofList_toDigits, Nat.repr_eq_ofList_toDigits, String.ofList_inj] at hrepr
  rw [← UInt64.toNat_inj, ← Nat.ofDigitChars_ten_toDigits (n := a.toNat), hrepr,
    Nat.ofDigitChars_ten_toDigits]

/-- Counting on does not come back to a number within 64 bits. -/
theorem add_ofNat_succ_ne {n : UInt64} {i : Nat} (hi : i + 1 < UInt64.size) :
    n + UInt64.ofNat (i + 1) ≠ n := by
  rw [ne_eq, UInt64.add_eq_left]
  intro he
  have hnat : (UInt64.ofNat (i + 1)).toNat = i + 1 := UInt64.toNat_ofNat_of_lt' hi
  rw [he] at hnat
  cases hnat

/-- Whether a mutation can make a vertex. -/
def Mutation.makes : Mutation → Bool
  | .setVertex _ _ _ => true
  | _ => false

theorem Outline.live_performAll_subset {ms : List Mutation} (h : ∀ m ∈ ms, m.makes = false)
    (o : Outline) : (o.performAll ms).live ⊆ o.live := by
  induction ms generalizing o with
  | nil => exact subset_rfl
  | cons m rest ih =>
    rw [performAll]
    split
    · exact subset_rfl
    · next next answer hm =>
      refine (ih (fun later hl => h later (List.mem_cons_of_mem _ hl)) next).trans ?_
      cases m with
      | setVertex id type properties => cases h _ List.mem_cons_self
      | setProperty id key value => rw [eq_of_setProperty hm]
      | removeVertex id =>
        rw [perform] at hm
        split at hm
        · cases hm
          exact Finset.erase_subset id o.live
        · cases hm
      | setEdge e =>
        rw [perform] at hm
        split at hm
        · cases hm
        · split at hm
          · cases hm
          · cases hm
            exact subset_rfl
      | removeEdge e =>
        cases hm
        exact subset_rfl

/-- If the call makes a vertex in the graph of the registry, it goes through the registry. -/
def ModelCall.MakesThrough (home : RegistryId → GraphId) (r : RegistryId) (call : ModelCall) :
    Prop :=
  ∀ q m properties, call = .create q m properties → home q = home r → q = r

/-- Whether the call takes an id from the registry. -/
def ModelCall.takesId (r : RegistryId) : ModelCall → Bool
  | .create q _ _ => q == r
  | _ => false

namespace Instance

variable (w : Workspace) (i : Instance) (c : Connection)

theorem makes_linking (target : VertexId) : ∀ m ∈ i.linking c target, m.makes = false := by
  intro m hm
  obtain ⟨e, _, rfl⟩ := List.mem_map.mp hm
  rfl

theorem makes_unlinking (target : VertexId) : ∀ m ∈ i.unlinking c target, m.makes = false := by
  intro m hm
  obtain ⟨e, _, rfl⟩ := List.mem_map.mp hm
  rfl

theorem makes_flatMap_unlinking (targets : List VertexId) :
    ∀ m ∈ targets.flatMap (i.unlinking c), m.makes = false := by
  intro m hm
  obtain ⟨t, _, hm⟩ := List.mem_flatMap.mp hm
  exact i.makes_unlinking c t m hm

end Instance

namespace Workspace

variable {w : Workspace} {home : RegistryId → GraphId} {g : GraphId} {r : RegistryId}
  {stem : String} {ms : List Mutation}

/-- The second workspace is the first after mutations of some graph that can make no vertex. -/
def MakesNone (w x : Workspace) : Prop :=
  ∃ g ms, (∀ m ∈ ms, m.makes = false) ∧ x = (w.performAll g ms).1

theorem MakesNone.refl (w : Workspace) : w.MakesNone w := ⟨0, [], by simp, rfl⟩

theorem MakesNone.onConnection {found : Except Error Connection}
    {call : Connection → Workspace × Except Error Unit}
    (hcall : ∀ c, w.MakesNone (call c).1) : w.MakesNone (w.onConnection found call).1 := by
  unfold Workspace.onConnection
  split
  · exact .refl w
  · next c => exact hcall c

theorem makesNone_clear (w : Workspace) (i : Instance) (c : Connection) :
    w.MakesNone (i.clear w c).1 :=
  ⟨_, _, i.makes_flatMap_unlinking c _, rfl⟩

theorem makesNone_setTarget (w : Workspace) (i : Instance) (c : Connection)
    (target : Option Instance) : w.MakesNone (i.setTarget w c target).1 := by
  cases target with
  | none => exact makesNone_clear w i c
  | some j =>
    unfold Instance.setTarget
    dsimp only
    split
    · exact .refl w
    · refine ⟨_, _, fun m hm => ?_, rfl⟩
      rcases List.mem_append.mp hm with hm | hm
      · exact i.makes_flatMap_unlinking c _ m hm
      · exact i.makes_linking c j.id m hm

theorem makesNone_add (w : Workspace) (i : Instance) (c : Connection) (j : Instance) :
    w.MakesNone (i.add w c j).1 := by
  unfold Instance.add
  split
  · exact .refl w
  · exact ⟨_, _, i.makes_linking c j.id, rfl⟩

theorem makesNone_removeMember (w : Workspace) (i : Instance) (c : Connection) (j : Instance) :
    w.MakesNone (i.removeMember w c j).1 := by
  unfold Instance.removeMember
  split
  · exact .refl w
  · exact ⟨_, _, i.makes_unlinking c j.id, rfl⟩

theorem makesNone_set (w : Workspace) (i : Instance) (property : String) (value : Value) :
    w.MakesNone (i.set w property value).1 := by
  unfold Instance.set
  split
  · exact ⟨_, _, by simp [Mutation.makes], rfl⟩
  · exact .refl w

/-- Only the calls that make an instance make a vertex. -/
theorem makesNone_performCall (w : Workspace) {call : ModelCall}
    (hcall : ∀ r m properties, call ≠ .create r m properties) :
    w.MakesNone (w.performCall call).1 := by
  cases call with
  | create r m properties => exact absurd rfl (hcall r m properties)
  | set i property value => exact makesNone_set w i property value
  | remove i =>
    exact ⟨i.graph w, [.removeVertex i.id], by simp [Mutation.makes],
      (performAll_singleton w _ _).symm⟩
  | setTarget i name target => exact .onConnection (fun c => makesNone_setTarget w i c target)
  | clear i name => exact .onConnection (fun c => makesNone_clear w i c)
  | add i name member => exact .onConnection (fun c => makesNone_add w i c member)
  | removeMember i name member =>
    exact .onConnection (fun c => makesNone_removeMember w i c member)

/-- The registry counts, and no vertex has one of the ids that it gives next, so many of them. -/
structure Ahead (home : RegistryId → GraphId) (r : RegistryId) (stem : String) (ids : Nat)
    (o : Outline) (w : Workspace) : Prop extends w.Outlined home (home r) o where
  strategy : (w.registry r).strategy = .sequential stem
  free : ∀ i < ids, stem ++ toString ((w.registry r).minted + 1 + UInt64.ofNat i) ∉ o.live

section Ahead

variable {o : Outline} {ids : Nat}

theorem Ahead.performAll (h : w.Ahead home r stem ids o) (hms : ∀ m ∈ ms, m.makes = false) :
    ∃ o', (w.performAll g ms).1.Ahead home r stem ids o' := by
  have hregistry : (w.performAll g ms).1.registry r = w.registry r := by
    rw [registry, registries_performAll, ← registry]
  refine ⟨_, h.toOutlined.performAll g ms, ?_, ?_⟩
  · rw [hregistry]
    exact h.strategy
  · rw [hregistry]
    intro i hi
    split
    · exact fun hm => h.free i hi (o.live_performAll_subset hms hm)
    · exact h.free i hi

theorem Ahead.makesNone (h : w.Ahead home r stem ids o) {x : Workspace} (hx : w.MakesNone x) :
    ∃ o', x.Ahead home r stem ids o' := by
  obtain ⟨g, ms, hms, rfl⟩ := hx
  exact h.performAll hms

theorem registry_create (w : Workspace) (q : RegistryId) (m : Model) (properties : Properties)
    (r : RegistryId) :
    (w.create q m properties).1.registry r = (w.mint q).1.registry r := by
  rw [create, registry]
  dsimp only
  rw [registries_perform, ← registry]

theorem registry_mint_of_ne {q : RegistryId} (hq : q ≠ r) :
    (w.mint q).1.registry r = w.registry r := by
  unfold mint
  dsimp only
  split
  · rfl
  · rw [registry_withRegistry, if_neg (fun h => hq h.1)]

/-- A registry that counts is one of those that there are. -/
theorem lt_length_of_sequential (hr : (w.registry r).strategy = .sequential stem) :
    r < w.registries.length := by
  by_contra hn
  rw [registry, List.getElem?_eq_none (Nat.le_of_not_lt hn)] at hr
  cases hr

theorem registry_mint_self (hr : (w.registry r).strategy = .sequential stem) :
    (w.mint r).1.registry r = ⟨w.graphOf r, (w.registry r).models, .sequential stem,
      (w.registry r).minted + 1⟩ := by
  rw [mint_sequential hr, registry_withRegistry, if_pos ⟨rfl, lt_length_of_sequential hr⟩]

/-- Making a vertex through the registry uses up the first of the ids. -/
theorem Ahead.create_self (h : w.Ahead home r stem (ids + 1) o) (hids : ids + 1 ≤ UInt64.size)
    (m : Model) (properties : Properties) :
    ∃ o', (w.create r m properties).1.Ahead home r stem ids o' := by
  refine ⟨_, h.toOutlined.create r m properties, ?_, ?_⟩
  · rw [registry_create, registry_mint_self h.strategy]
  · rw [registry_create, registry_mint_self h.strategy]
    intro i hi
    have hnext : (w.registry r).minted + 1 + 1 + UInt64.ofNat i =
        (w.registry r).minted + 1 + UInt64.ofNat (i + 1) := by
      rw [UInt64.ofNat_add, UInt64.add_assoc _ 1, UInt64.add_comm 1]
      rfl
    -- The id that has been given is none of those that come later, which the bound keeps apart.
    dsimp only
    rw [hnext, if_pos rfl, mint_sequential h.strategy, Finset.mem_insert, not_or]
    exact ⟨fun hs => add_ofNat_succ_ne (by omega) (numbered_inj hs), h.free (i + 1) (by omega)⟩

theorem Ahead.create_of_ne (h : w.Ahead home r stem ids o) {q : RegistryId} (hne : q ≠ r)
    (hq : home q = home r → q = r) (m : Model) (properties : Properties) :
    ∃ o', (w.create q m properties).1.Ahead home r stem ids o' := by
  refine ⟨_, h.toOutlined.create q m properties, ?_, ?_⟩
  · rw [registry_create, registry_mint_of_ne hne]
    exact h.strategy
  · rw [registry_create, registry_mint_of_ne hne, if_neg (fun hg => hne (hq hg))]
    exact h.free

theorem Ahead.performCall {call : ModelCall} (hcall : call.MakesThrough home r)
    (hids : ids + (if call.takesId r then 1 else 0) ≤ UInt64.size)
    (h : w.Ahead home r stem (ids + if call.takesId r then 1 else 0) o) :
    ∃ o', (w.performCall call).1.Ahead home r stem ids o' := by
  by_cases hc : ∃ q m properties, call = .create q m properties
  · obtain ⟨q, m, properties, rfl⟩ := hc
    by_cases hq : q = r
    · subst hq
      rw [ModelCall.takesId, beq_self_eq_true, if_pos rfl] at h hids
      exact h.create_self hids m properties
    · rw [ModelCall.takesId, beq_false_of_ne hq, if_neg Bool.false_ne_true] at h
      exact h.create_of_ne hq (hcall q m properties rfl) m properties
  · have hnone : call.takesId r = false := by
      cases call with
      | create q m properties => exact absurd ⟨q, m, properties, rfl⟩ hc
      | _ => rfl
    rw [hnone, if_neg Bool.false_ne_true] at h
    exact h.makesNone (w.makesNone_performCall fun q m properties he => hc ⟨q, m, properties, he⟩)

/-- The ids that are free have to be enough for the run and for what comes behind it. -/
theorem Ahead.afterCalls {calls : List ModelCall}
    (hcalls : ∀ call ∈ calls, call.MakesThrough home r)
    (hids : ids + calls.countP (ModelCall.takesId r) ≤ UInt64.size)
    (h : w.Ahead home r stem (ids + calls.countP (ModelCall.takesId r)) o) :
    ∃ o', (w.afterCalls calls).Ahead home r stem ids o' := by
  unfold Workspace.afterCalls
  induction calls generalizing w o with
  | nil => exact ⟨o, h⟩
  | cons call rest ih =>
    rw [List.countP_cons, ← Nat.add_assoc] at h hids
    obtain ⟨o', h'⟩ := h.performCall (hcalls call List.mem_cons_self) hids
    exact ih (fun later hm => hcalls later (List.mem_cons_of_mem _ hm)) (by omega) h'

end Ahead

/-- A registry that alone makes vertices in its graph makes a new vertex every time, if the ids that
it counts up to then are free. After 2 ^ 64 numbers it begins anew. -/
theorem sole_registry_makes_new_vertices (hr : (w.registry r).strategy = .sequential stem)
    (hg : w.graphOf r < w.graphs.length) (hs : (w.store (w.graphOf r)).WellFormed)
    {calls : List ModelCall} (hcalls : ∀ call ∈ calls, call.MakesThrough w.graphOf r)
    (hcount : calls.countP (ModelCall.takesId r) < UInt64.size)
    (hfree : ∀ i ≤ calls.countP (ModelCall.takesId r), (w.store (w.graphOf r)).hasVertex
      (stem ++ toString ((w.registry r).minted + 1 + UInt64.ofNat i)) = false)
    (m : Model) (properties : Properties) :
    let x := w.afterCalls calls
    let created := x.create r m properties
    (x.store (w.graphOf r)).hasVertex created.2.id = false ∧
    (created.1.store (w.graphOf r)).vertex? created.2.id =
      some (.cleaned created.2.id m.type properties) ∧
    (created.1.store (w.graphOf r)).vertexCount = (x.store (w.graphOf r)).vertexCount + 1 := by
  intro x created
  have hstart : w.Ahead w.graphOf r stem (1 + calls.countP (ModelCall.takesId r))
      (w.store (w.graphOf r)).outline := by
    refine ⟨⟨hg, fun _ => rfl, hs, rfl⟩, hr, fun i hi hm => ?_⟩
    rw [Store.mem_outline_live, ← Store.hasVertex_iff, hfree i (by omega)] at hm
    cases hm
  obtain ⟨o, hx⟩ : ∃ o, x.Ahead w.graphOf r stem 1 o := hstart.afterCalls hcalls (by omega)
  have hgraph : x.graphOf r = w.graphOf r := hx.registries r
  obtain ⟨hi, ht⟩ := create_sequential hx.strategy (hgraph ▸ hx.graph) m properties
  have hfirst : stem ++ toString ((x.registry r).minted + 1) ∉ o.live := by
    rw [← UInt64.add_zero ((x.registry r).minted + 1)]
    exact hx.free 0 Nat.one_pos
  have hfresh : (x.store (w.graphOf r)).hasVertex created.2.id = false := by
    rw [Bool.eq_false_iff]
    intro hp
    rw [Store.hasVertex_iff, ← Store.mem_outline_live, hx.outline, hi] at hp
    exact hfirst hp
  rw [hgraph] at ht
  refine ⟨hfresh, ?_, ?_⟩
  · rw [ht, hi]
    exact Store.vertex?_stored_self _ _
  · rw [hi] at hfresh
    dsimp only at hfresh
    rw [ht, Store.vertexCount_stored, Vertex.cleaned, hfresh, if_neg Bool.false_ne_true]

end Workspace

end PropertyGraph
