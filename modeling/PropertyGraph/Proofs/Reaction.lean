import PropertyGraph.Proofs.Journal

namespace PropertyGraph

/-- No write of a property ends what holds of a store. -/
def Store.Steady (P : Store → Prop) : Prop :=
  ∀ {s t : Store} {id : VertexId} {key : String} {value : Value} {event : Event},
    P s → s.setProperty id key value = .ok (t, event) → P t

namespace Workspace

variable {w w' : Workspace} {g k : GraphId} {P Q : Store → Prop} {m : Mutation} {out : Outcome}
  {event : Event}

/-- There is such a graph, and its store has the property. -/
structure Holds (w : Workspace) (g : GraphId) (P : Store → Prop) : Prop where
  graph : g < w.graphs.length
  store : P (w.store g)

theorem Holds.of_eq (h : w.Holds g P) (hg : w'.graphs = w.graphs) : w'.Holds g P where
  graph := hg ▸ h.graph
  store := by
    rw [Workspace.store, hg]
    exact h.store

theorem Holds.withStore (hg : g < w.graphs.length) {s : Store} (hs : P s) :
    (w.withStore g s).Holds g P where
  graph := (List.length_modify ..).symm ▸ hg
  store := by
    rw [store_withStore hg]
    exact hs

theorem Holds.withStore_of_ne (h : w.Holds g P) (hk : k ≠ g) (s : Store) :
    (w.withStore k s).Holds g P where
  graph := (List.length_modify ..).symm ▸ h.graph
  store := by
    rw [store_withStore_of_ne hk]
    exact h.store

theorem frame_recordAll (w : Workspace) (k : GraphId) (event : Event) :
    (w.recordAll k event).graphs = w.graphs ∧ (w.recordAll k event).registries = w.registries := by
  unfold recordAll
  generalize w.subscribers k = sinks
  induction sinks generalizing w with
  | nil => exact ⟨rfl, rfl⟩
  | cons i rest ih => exact ih (record event w i)

theorem Holds.react (h : w.Holds g P) (hP : Store.Steady P) (event : Event) (i : SinkId) :
    (w.react event i).Holds g P := by
  unfold Workspace.react
  dsimp only
  split
  · exact h
  · next r e _ =>
    have hseen : (w.withSink i ⟨(w.sink i).journal, (w.sink i).reaction,
        (w.sink i).seen + 1⟩).Holds g P := h.of_eq rfl
    split
    · exact hseen
    · next s update hs =>
      refine Holds.of_eq ?_ (frame_recordAll _ r.graph update).1
      by_cases hr : r.graph = g
      · rw [hr] at hs ⊢
        exact .withStore hseen.graph (hP hseen.store hs)
      · exact hseen.withStore_of_ne hr s

theorem Holds.announce (h : w.Holds g P) (hP : Store.Steady P) (k : GraphId) (event : Event) :
    (w.announce k event).Holds g P := by
  unfold Workspace.announce
  generalize w.subscribers k = sinks
  induction sinks generalizing w with
  | nil => exact h
  | cons i rest ih =>
    have hrecord : (w.record event i).Holds g P := h.of_eq rfl
    exact ih (hrecord.react hP event i)

/-- What holds of the store behind a change goes on while the sinks are told. -/
theorem Holds.settle (hg : g < w.graphs.length) (hP : Store.Steady P) (hs : P out.store) :
    (w.settle g out).Holds g P := by
  have hstore : (w.withStore g out.store).Holds g P := .withStore hg hs
  unfold Workspace.settle
  dsimp only
  split
  · exact hstore
  · exact hstore.announce hP g _

/-- A change of another graph does not end what holds of this one. -/
theorem Holds.settle_of_ne (h : w.Holds g P) (hP : Store.Steady P) (hk : k ≠ g) (out : Outcome) :
    (w.settle k out).Holds g P := by
  have hstore := h.withStore_of_ne hk out.store
  unfold Workspace.settle
  dsimp only
  split
  · exact hstore
  · exact hstore.announce hP k _

/-- A mutation that succeeds on the store succeeds on the graph. -/
theorem Holds.perform (h : w.Holds g P) (hQ : Store.Steady Q)
    (hm : (w.store g).perform m = .ok out) (hs : Q out.store) :
    ∃ w', w.perform g m = (w', .ok out.reply) ∧ w'.Holds g Q := by
  rw [Workspace.perform, hm]
  exact ⟨_, rfl, .settle h.graph hQ hs⟩

theorem reactionTo?_eq_none (he : event.edge? = none) (sink : Sink) :
    reactionTo? sink event = none := by
  unfold reactionTo?
  cases sink.reaction <;> simp [he]

/-- An event that tells of no edge is recorded, and no sink answers it. -/
theorem announce_eq_recordAll (he : event.edge? = none) (w : Workspace) (g : GraphId) :
    w.announce g event = w.recordAll g event := by
  have hd : deliver event = record event := by
    funext w i
    rw [deliver, react, reactionTo?_eq_none he]
  rw [announce, recordAll, hd]

theorem graphs_announce (he : event.edge? = none) (w : Workspace) (g : GraphId) :
    (w.announce g event).graphs = w.graphs := by
  rw [announce_eq_recordAll he]
  exact (frame_recordAll w g event).1

theorem registries_react (w : Workspace) (event : Event) (i : SinkId) :
    (w.react event i).registries = w.registries := by
  unfold react
  dsimp only
  split
  · rfl
  · split
    · rfl
    · exact (frame_recordAll _ _ _).2

theorem registries_settle (w : Workspace) (g : GraphId) (o : Outcome) :
    (w.settle g o).registries = w.registries := by
  have hdeliver : ∀ (sinks : List SinkId) (event : Event) (w : Workspace),
      (sinks.foldl (deliver event) w).registries = w.registries := by
    intro sinks event
    induction sinks with
    | nil => exact fun _ => rfl
    | cons i rest ih =>
      intro w
      rw [List.foldl_cons, ih]
      exact registries_react (record event w i) event i
  unfold settle
  dsimp only
  split
  · rfl
  · exact hdeliver _ _ _

theorem registries_perform (w : Workspace) (g : GraphId) (m : Mutation) :
    (w.perform g m).1.registries = w.registries := by
  unfold Workspace.perform
  split
  · rfl
  · exact registries_settle w g _

theorem registries_performAll (w : Workspace) (g : GraphId) (ms : List Mutation) :
    (w.performAll g ms).1.registries = w.registries := by
  induction ms generalizing w with
  | nil => rfl
  | cons m rest ih =>
    have hm := registries_perform w g m
    rw [Workspace.performAll]
    split
    · next x e hx =>
      rw [hx] at hm
      exact hm
    · next x reply hx =>
      rw [hx] at hm
      rw [ih]
      exact hm

/-- Once some mutations have succeeded, those behind them are performed. -/
theorem performAll_append {ms : List Mutation} (h : w.performAll g ms = (w', .ok ()))
    (rest : List Mutation) : w.performAll g (ms ++ rest) = w'.performAll g rest := by
  induction ms generalizing w with
  | nil =>
    cases h
    rfl
  | cons m ms ih =>
    rw [Workspace.performAll] at h
    rw [List.cons_append, Workspace.performAll]
    split at h
    · cases h
    · exact ih h

end Workspace

end PropertyGraph
