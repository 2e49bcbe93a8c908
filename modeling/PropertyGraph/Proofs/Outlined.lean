import PropertyGraph.Proofs.Outline
import PropertyGraph.Proofs.Reaction
import PropertyGraph.Workspace.Instance

namespace PropertyGraph

namespace Outline

/-- The sets behind mutations that are performed up to the first that fails. -/
def performAll (o : Outline) : List Mutation → Outline
  | [] => o
  | m :: rest =>
    match o.perform m with
    | .error _ => o
    | .ok (next, _) => next.performAll rest

theorem eq_of_setProperty {o next : Outline} {answer : Answer} {id : VertexId} {key : String}
    {value : Value} (h : o.perform (.setProperty id key value) = .ok (next, answer)) :
    next = o := by
  rw [perform] at h
  split at h
  · cases h
  · split at h
    · cases h
      rfl
    · cases h

theorem performAll_setEdges (o : Outline) {es : List Edge}
    (h : ∀ e ∈ es, e.origin ∈ o.live ∧ e.target ∈ o.live) :
    o.performAll (es.map .setEdge) = ⟨o.live, o.edges ∪ es.toFinset⟩ := by
  induction es generalizing o with
  | nil => simp [performAll]
  | cons e rest ih =>
    obtain ⟨ho, ht⟩ := h e List.mem_cons_self
    rw [List.map_cons, performAll, perform, if_neg (not_not.mpr ho), if_neg (not_not.mpr ht)]
    dsimp only
    rw [ih ⟨o.live, insert e o.edges⟩ (fun e he => h e (List.mem_cons_of_mem _ he))]
    ext x <;> simp

/-- An edge that cannot be set keeps those behind it from being set. -/
theorem performAll_setEdge_failing (o : Outline) {e : Edge}
    (h : ¬ (e.origin ∈ o.live ∧ e.target ∈ o.live)) (rest : List Mutation) :
    o.performAll (.setEdge e :: rest) = o := by
  rw [performAll, perform]
  by_cases ho : e.origin ∈ o.live
  · rw [if_neg (not_not.mpr ho), if_pos (fun ht => h ⟨ho, ht⟩)]
  · rw [if_pos ho]

/-- Taking edges away never fails, so the mutations behind it are performed. -/
theorem performAll_removeEdges_append (o : Outline) (es : List Edge) (rest : List Mutation) :
    o.performAll (es.map .removeEdge ++ rest) =
      performAll ⟨o.live, o.edges \ es.toFinset⟩ rest := by
  induction es generalizing o with
  | nil => simp
  | cons e es ih =>
    rw [List.map_cons, List.cons_append, performAll, perform]
    dsimp only
    rw [ih]
    congr 2
    ext x
    simp only [Finset.mem_sdiff, Finset.mem_erase, List.mem_toFinset, List.mem_cons]
    tauto

end Outline

namespace Workspace

variable {w w' : Workspace} {home : RegistryId → GraphId} {g k : GraphId} {o : Outline}

/-- The store of a graph is well-formed and has these vertices and edges, and the registries lie
over the given graphs. -/
structure Outlined (home : RegistryId → GraphId) (g : GraphId) (o : Outline) (w : Workspace) :
    Prop where
  graph : g < w.graphs.length
  registries : ∀ r, w.graphOf r = home r
  wellFormed : (w.store g).WellFormed
  outline : (w.store g).outline = o

theorem Outlined.of_eq (h : w.Outlined home g o) (hg : w'.graphs = w.graphs)
    (hr : ∀ r, w'.graphOf r = w.graphOf r) : w'.Outlined home g o where
  graph := hg ▸ h.graph
  registries r := (hr r).trans (h.registries r)
  wellFormed := by
    rw [store, hg]
    exact h.wellFormed
  outline := by
    rw [store, hg]
    exact h.outline

theorem steady_outline (o : Outline) :
    Store.Steady (fun s => s.WellFormed ∧ s.outline = o) := by
  rintro s t id key value event ⟨hw, rfl⟩ hs
  have hm : s.perform (.setProperty id key value) = .ok ⟨t, .done, some event⟩ := by
    rw [Store.perform, hs]
    rfl
  have ho := hw.perform_outline (.setProperty id key value)
  rw [hm] at ho
  exact ⟨(hw.perform_effect hm).wellFormed hw, Outline.eq_of_setProperty ho.symm⟩

theorem Outlined.of_holds (h : w.Holds g (fun s => s.WellFormed ∧ s.outline = o))
    (hr : ∀ r, w.graphOf r = home r) : w.Outlined home g o :=
  ⟨h.graph, hr, h.store.1, h.store.2⟩

theorem Outlined.holds (h : w.Outlined home g o) :
    w.Holds g (fun s => s.WellFormed ∧ s.outline = o) :=
  ⟨h.graph, h.wellFormed, h.outline⟩

/-- A change of any graph leaves the graph in question with the vertices and edges that the change
gave it, if it is the graph that was changed. -/
theorem Outlined.settle (h : w.Outlined home g o) {out : Outcome} {o' : Outline}
    (hs : k = g → out.store.WellFormed ∧ out.store.outline = o') :
    (w.settle k out).Outlined home g (if k = g then o' else o) := by
  have hr : ∀ r, (w.settle k out).graphOf r = home r := by
    intro r
    rw [graphOf, registry, registries_settle]
    exact h.registries r
  by_cases hk : k = g
  · subst hk
    rw [if_pos rfl]
    exact .of_holds (.settle h.graph (steady_outline o') (hs rfl)) hr
  · rw [if_neg hk]
    exact .of_holds (h.holds.settle_of_ne (steady_outline o) hk out) hr

/-- What a mutation that succeeds makes of the vertices and edges. -/
theorem Outlined.outcome (h : w.Outlined home g o) {m : Mutation} {out : Outcome}
    (hm : (w.store g).perform m = .ok out) :
    out.store.WellFormed ∧ o.perform m = .ok (out.store.outline, out.reply.answer) := by
  have hp := h.wellFormed.perform_outline m
  rw [hm, h.outline] at hp
  exact ⟨(h.wellFormed.perform_effect hm).wellFormed h.wellFormed, hp.symm⟩

/-- A mutation of the graph fails where it fails on the plain sets, and does to the vertices and
edges what it does to those. -/
theorem Outlined.perform (h : w.Outlined home g o) (m : Mutation) :
    (∃ e, o.perform m = .error e ∧ w.perform g m = (w, .error e)) ∨
      ∃ next answer, o.perform m = .ok (next, answer) ∧
        ∃ w' reply, w.perform g m = (w', .ok reply) ∧ w'.Outlined home g next := by
  rw [Workspace.perform]
  cases hm : (w.store g).perform m with
  | error e =>
    have hp := h.wellFormed.perform_outline m
    rw [hm, h.outline] at hp
    exact Or.inl ⟨e, hp.symm, rfl⟩
  | ok out =>
    obtain ⟨hw, ho⟩ := h.outcome hm
    refine Or.inr ⟨_, _, ho, _, _, rfl, ?_⟩
    have hsettled := h.settle (k := g) (fun _ => ⟨hw, rfl⟩)
    rwa [if_pos rfl] at hsettled

theorem Outlined.perform_other (h : w.Outlined home g o) (hk : k ≠ g) (m : Mutation) :
    (w.perform k m).1.Outlined home g o := by
  rw [Workspace.perform]
  cases (w.store k).perform m with
  | error e => exact h
  | ok out =>
    have hsettled : (w.settle k out).Outlined home g (if k = g then o else o) :=
      h.settle (fun he => absurd he hk)
    rwa [ite_self] at hsettled

theorem Outlined.performAll (h : w.Outlined home g o) (k : GraphId) (ms : List Mutation) :
    (w.performAll k ms).1.Outlined home g (if k = g then o.performAll ms else o) := by
  induction ms generalizing w o with
  | nil => simpa [Workspace.performAll, Outline.performAll] using h
  | cons m rest ih =>
    rw [Workspace.performAll]
    by_cases hk : k = g
    · subst hk
      rw [if_pos rfl, Outline.performAll]
      rcases h.perform m with ⟨e, ho, hw⟩ | ⟨next, answer, ho, w', reply, hw, h'⟩
      · rw [ho, hw]
        exact h
      · rw [ho, hw]
        simpa using ih h'
    · rw [if_neg hk]
      have h' := h.perform_other hk m
      split
      · next w' e he => rwa [he] at h'
      · next w' reply he =>
        rw [he] at h'
        simpa [hk] using ih h'

theorem performAll_singleton (w : Workspace) (k : GraphId) (n : Mutation) :
    (w.performAll k [n]).1 = (w.perform k n).1 := by
  simp only [Workspace.performAll]
  split <;> simp [*]

theorem registry_withRegistry (w : Workspace) (r q : RegistryId) (registry : Registry) :
    (w.withRegistry r registry).registry q =
      if r = q ∧ q < w.registries.length then registry else w.registry q := by
  simp only [Workspace.registry, withRegistry, List.getElem?_modify]
  by_cases hrq : r = q
  · by_cases hq : q < w.registries.length <;> simp [hrq, hq]
  · simp [hrq]

theorem graphs_mint (w : Workspace) (r : RegistryId) : (w.mint r).1.graphs = w.graphs := by
  unfold mint
  dsimp only
  split <;> rfl

theorem graphOf_mint (w : Workspace) (r q : RegistryId) :
    (w.mint r).1.graphOf q = w.graphOf q := by
  unfold mint
  dsimp only
  split
  · rfl
  · rw [graphOf, registry_withRegistry]
    split
    · next h => rw [h.1, graphOf]
    · rfl

/-- Minting an id writes a registry anew, over the same graph. -/
theorem Outlined.mint (h : w.Outlined home g o) (r : RegistryId) :
    (w.mint r).1.Outlined home g o :=
  h.of_eq (graphs_mint w r) (graphOf_mint w r)

theorem Outlined.create (h : w.Outlined home g o) (q : RegistryId) (m : Model)
    (properties : Properties) :
    (w.create q m properties).1.Outlined home g
      (if home q = g then ⟨insert (w.mint q).2 o.live, o.edges⟩ else o) := by
  have hmade := (h.mint q).performAll ((w.mint q).1.graphOf q)
    [.setVertex (w.mint q).2 m.type properties]
  rw [performAll_singleton] at hmade
  rw [← (h.mint q).registries q]
  exact hmade

end Workspace

end PropertyGraph
