import PropertyGraph.Proofs.Outlined

namespace PropertyGraph

namespace Store

variable {s : Store} {e : Edge} {event : Event} {o : Outcome}

/-- Repeating the change succeeds, leaves the store as it is and gives no news of an edge. -/
def Absorbs (s : Store) (event : Event) : Prop :=
  ∃ o, s.apply event = .ok o ∧ o.store = s ∧ ∀ news, o.event = some news → news.edge? = none

/-- A record that is written over with itself keeps its place, and so does its id. -/
theorem stored_stored (s : Store) (v : Vertex) : (s.stored v).stored v = s.stored v := by
  have hv : (s.stored v).vertex? v.id = some v := by rw [vertex?_stored, if_pos rfl]
  have hm : v.id ∈ (s.stored v).idsOf (some v.type) := mem_idsOf_stored.mpr (.inl ⟨rfl, rfl⟩)
  have hvertices : (s.stored v).vertices.insert v.id v = (s.stored v).vertices :=
    OrderedMap.insert_eq_self hv
  have hside : ∀ side, (s.stored v).opened v.id side = side :=
    fun side => if_pos (hasVertex_of_vertex? hv)
  have hindex : filing (s.stored v).typeIndex v.type v.id = (s.stored v).typeIndex :=
    filing_eq_self hm
  rw [stored.eq_1 (s.stored v) v, hvertices, hside, hside, hindex]

theorem absorbs_deleteNode {v : Vertex} (hn : s.vertex? v.id = none) (edges : List Edge) :
    s.Absorbs (.deleteNode v edges) := by
  have hp : ¬ s.hasVertex v.id = true := fun hm => vertex?_eq_none.mp hn (hasVertex_iff.mp hm)
  refine ⟨⟨s, .done, none⟩, ?_, rfl, nofun⟩
  rw [apply, mutationOf?, if_neg hp]

theorem WellFormed.absorbs_makeEdge (h : s.WellFormed) (he : s.hasEdge e = true) :
    s.Absorbs (.makeEdge e) := by
  obtain ⟨horigin, htarget⟩ := h.ends he
  refine ⟨⟨s, .changed false, none⟩, ?_, rfl, nofun⟩
  have hp := h.perform_setEdge horigin htarget
  rwa [if_pos he] at hp

theorem WellFormed.absorbs_deleteEdge (h : s.WellFormed) (he : s.hasEdge e = false) :
    s.Absorbs (.deleteEdge e) := by
  refine ⟨⟨s, .changed false, none⟩, ?_, rfl, nofun⟩
  have hp := h.perform_removeEdge e
  rwa [he, if_neg Bool.false_ne_true] at hp

/-- A change of a vertex gives no news of an edge and is absorbed where it has been made. -/
theorem WellFormed.absorbed_of_vertexEvent (h : s.WellFormed) (ha : s.apply event = .ok o)
    (hvertex : event.edge? = none) :
    o.store.Absorbs event ∧ ∀ news, o.event = some news → news.edge? = none := by
  cases event with
  | createNode v | updateNode _ v =>
    obtain ⟨news, hnews, hp⟩ := s.perform_setVertex v.id v.type v.properties
    obtain rfl := Except.ok.inj (hp.symm.trans ha)
    obtain ⟨again, hagain, hp'⟩ :=
      (s.stored (.cleaned v.id v.type v.properties)).perform_setVertex v.id v.type v.properties
    exact ⟨⟨_, hp', stored_stored s _, by rintro _ ⟨⟩; exact hagain⟩, by rintro _ ⟨⟩; exact hnews⟩
  | deleteNode v edges =>
    cases hv : s.vertex? v.id with
    | none =>
      obtain ⟨o', ho', rfl, hnews⟩ := absorbs_deleteNode hv edges
      obtain rfl := Except.ok.inj (ho'.symm.trans ha)
      exact ⟨absorbs_deleteNode hv edges, hnews⟩
    | some w =>
      rw [apply, mutationOf?, if_pos (hasVertex_of_vertex? hv)] at ha
      obtain rfl := Except.ok.inj ((h.perform_removeVertex_present hv).symm.trans ha)
      exact ⟨absorbs_deleteNode (by rw [vertex?_without, if_pos rfl]) edges, by rintro _ ⟨⟩; rfl⟩
  | makeEdge e => cases hvertex
  | deleteEdge e => cases hvertex

theorem WellFormed.hasEdge_of_makeEdge (h : s.WellFormed) (ha : s.apply (.makeEdge e) = .ok o) :
    o.store.hasEdge e = true := by
  have ha : s.perform (.setEdge e) = .ok o := ha
  by_cases horigin : e.origin ∈ s.vertices.keys
  · by_cases htarget : e.target ∈ s.vertices.keys
    · rw [h.perform_setEdge horigin htarget] at ha
      split at ha
      · next he =>
        cases ha
        exact he
      · cases ha
        simp [hasEdge_linked]
    · rw [perform_setEdge_noTarget horigin htarget] at ha
      cases ha
  · rw [perform_setEdge_noOrigin horigin] at ha
    cases ha

theorem WellFormed.hasEdge_of_deleteEdge (h : s.WellFormed)
    (ha : s.apply (.deleteEdge e) = .ok o) : o.store.hasEdge e = false := by
  have ha : s.perform (.removeEdge e) = .ok o := ha
  rw [h.perform_removeEdge] at ha
  split at ha
  · cases ha
    simp [hasEdge_restrict]
  · next he =>
    cases ha
    simpa using he

/-- Writes of properties neither make an edge nor take one away. -/
theorem steady_hasEdge (e : Edge) (present : Bool) :
    Steady (fun s => s.WellFormed ∧ s.hasEdge e = present) := by
  rintro s t id key value event ⟨h, rfl⟩ hs
  obtain ⟨ht, hsame⟩ := Workspace.steady_outline s.outline ⟨h, rfl⟩ hs
  refine ⟨ht, ?_⟩
  rw [Bool.eq_iff_iff, ← ht.mem_outline_edges, hsame, h.mem_outline_edges]

end Store

namespace Workspace

variable {w w' w'' : Workspace} {g k : GraphId} {event : Event} {i : SinkId} {o : Outcome}
  {P Q : Store → Prop}

theorem Holds.imp (h : w.Holds g P) (hPQ : ∀ s, P s → Q s) : w.Holds g Q :=
  ⟨h.graph, hPQ _ h.store⟩

/-- The news of a change that tells of no edge moves no store. -/
theorem Holds.settle_of_quiet (hg : g < w.graphs.length)
    (hquiet : ∀ news, o.event = some news → news.edge? = none) (hs : P o.store) :
    (w.settle g o).Holds g P := by
  have hstore : (w.withStore g o.store).Holds g P := .withStore hg hs
  unfold Workspace.settle
  cases hnews : o.event with
  | none => exact hstore
  | some news => exact hstore.of_eq (graphs_announce (hquiet news hnews) _ g)

/-- Behind a change the same change is absorbed, also where sinks have answered the first. -/
theorem holds_absorbs (hg : g < w.graphs.length) (h : (w.store g).WellFormed)
    (ha : (w.store g).apply event = .ok o) :
    (w.settle g o).Holds g (fun s => s.WellFormed ∧ s.Absorbs event) := by
  have ho : o.store.WellFormed := by
    have hafter := h.after (.apply event)
    rwa [Store.after, Store.call, ha] at hafter
  -- Sinks answer edge events alone, and only by writes of properties: after a change of a vertex
  -- they are silent, and after a change of an edge they leave the edge as it is.
  cases event with
  | createNode _ | updateNode _ _ | deleteNode _ _ =>
    obtain ⟨habsorbs, hquiet⟩ := h.absorbed_of_vertexEvent ha rfl
    exact .settle_of_quiet hg hquiet ⟨ho, habsorbs⟩
  | makeEdge e =>
    have hkept := Holds.settle hg (Store.steady_hasEdge e true) ⟨ho, h.hasEdge_of_makeEdge ha⟩
    exact hkept.imp (fun s hs => ⟨hs.1, hs.1.absorbs_makeEdge hs.2⟩)
  | deleteEdge e =>
    have hkept := Holds.settle hg (Store.steady_hasEdge e false) ⟨ho, h.hasEdge_of_deleteEdge ha⟩
    exact hkept.imp (fun s hs => ⟨hs.1, hs.1.absorbs_deleteEdge hs.2⟩)

/-- What a sink does next depends on its reaction and its count, not on its journal. -/
def stance (sink : Sink) : Option Reaction × Nat := (sink.reaction, sink.seen)

/-- The workspaces have the same graphs, and their sinks differ in their journals at most. -/
structure Alike (w w' : Workspace) : Prop where
  graphs : w'.graphs = w.graphs
  sinks : w'.sinks.length = w.sinks.length
  stance : ∀ i, stance (w'.sink i) = stance (w.sink i)

theorem Alike.refl (w : Workspace) : w.Alike w := ⟨rfl, rfl, fun _ => rfl⟩

theorem Alike.symm (h : w.Alike w') : w'.Alike w :=
  ⟨h.graphs.symm, h.sinks.symm, fun i => (h.stance i).symm⟩

theorem Alike.trans (h : w.Alike w') (h' : w'.Alike w'') : w.Alike w'' :=
  ⟨h'.graphs.trans h.graphs, h'.sinks.trans h.sinks, fun i => (h'.stance i).trans (h.stance i)⟩

theorem Alike.store (h : w.Alike w') (k : GraphId) : w'.store k = w.store k := by
  rw [Workspace.store, h.graphs]
  rfl

theorem Alike.subscribers (h : w.Alike w') (k : GraphId) : w'.subscribers k = w.subscribers k := by
  rw [Workspace.subscribers, h.graphs]
  rfl

theorem Alike.withStore (h : w.Alike w') (k : GraphId) (s : Store) :
    (w.withStore k s).Alike (w'.withStore k s) where
  graphs := by rw [Workspace.withStore, Workspace.withStore, h.graphs]
  sinks := h.sinks
  stance := h.stance

theorem Alike.withSink (h : w.Alike w') (i : SinkId) {a b : Sink}
    (hab : Workspace.stance b = Workspace.stance a) :
    (w.withSink i a).Alike (w'.withSink i b) where
  graphs := h.graphs
  sinks := by
    rw [Workspace.withSink, Workspace.withSink, List.length_modify, List.length_modify, h.sinks]
  stance j := by
    rw [sink_withSink, sink_withSink, h.sinks]
    split
    · exact hab
    · exact h.stance j

theorem alike_record (w : Workspace) (event : Event) (i : SinkId) :
    w.Alike (w.record event i) where
  graphs := rfl
  sinks := List.length_modify ..
  stance j := by
    rw [record, sink_withSink]
    split
    · next he => rw [← he.1]; rfl
    · rfl

theorem alike_recordAll (w : Workspace) (k : GraphId) (event : Event) :
    w.Alike (w.recordAll k event) := by
  unfold recordAll
  generalize w.subscribers k = sinks
  induction sinks generalizing w with
  | nil => exact .refl w
  | cons i rest ih => exact (w.alike_record event i).trans (ih (record event w i))

/-- Sinks that stand alike react alike. -/
theorem Alike.react (h : w.Alike w') (event : Event) (i : SinkId) :
    (w.react event i).Alike (w'.react event i) := by
  obtain ⟨hreaction, hseen⟩ := Prod.mk.inj (h.stance i)
  have hsame : reactionTo? (w'.sink i) event = reactionTo? (w.sink i) event := by
    rw [reactionTo?, reactionTo?, hreaction]
  unfold Workspace.react
  dsimp only
  rw [hsame, hseen, hreaction]
  split
  · exact h
  · next r e _ =>
    have hcounted := h.withSink i (a := ⟨(w.sink i).journal, (w.sink i).reaction,
      (w.sink i).seen + 1⟩) (b := ⟨(w'.sink i).journal, (w.sink i).reaction,
      (w.sink i).seen + 1⟩) rfl
    rw [hcounted.store]
    split
    · exact hcounted
    · next s update _ =>
      have hwritten := hcounted.withStore r.graph s
      exact ((alike_recordAll _ r.graph update).symm.trans hwritten).trans
        (alike_recordAll _ r.graph update)

theorem Alike.announce (h : w.Alike w') (k : GraphId) (event : Event) :
    (w.announce k event).Alike (w'.announce k event) := by
  unfold Workspace.announce
  rw [h.subscribers]
  generalize w.subscribers k = sinks
  induction sinks generalizing w w' with
  | nil => exact h
  | cons i rest ih =>
    have hrecorded := ((w.alike_record event i).symm.trans h).trans (w'.alike_record event i)
    exact ih (hrecorded.react event i)

theorem Alike.settle (h : w.Alike w') (k : GraphId) (o : Outcome) :
    (w.settle k o).Alike (w'.settle k o) := by
  have hstore := h.withStore k o.store
  unfold Workspace.settle
  dsimp only
  split
  · exact hstore
  · exact hstore.announce k _

/-- The answers are the same, and the workspaces behind them are alike. -/
structure Matches (a b : Workspace × Except Error Unit) : Prop where
  answer : b.2 = a.2
  alike : a.1.Alike b.1

theorem Matches.refl (a : Workspace × Except Error Unit) : Matches a a := ⟨rfl, .refl a.1⟩

theorem Alike.apply (h : w.Alike w') (g : GraphId) (event : Event) :
    Matches (w.apply g event) (w'.apply g event) := by
  unfold Workspace.apply
  rw [h.store]
  split
  · exact ⟨rfl, h⟩
  · exact ⟨rfl, h.settle g _⟩

theorem applyAll_cons (w : Workspace) (g : GraphId) (event : Event) (rest : List Event) :
    w.applyAll g (event :: rest) =
      match (w.apply g event).2 with
      | .error e => ((w.apply g event).1, .error e)
      | .ok _ => (w.apply g event).1.applyAll g rest := by
  rw [applyAll]
  rcases w.apply g event with ⟨x, _ | _⟩ <;> rfl

theorem Alike.applyAll (h : w.Alike w') (g : GraphId) (events : List Event) :
    Matches (w.applyAll g events) (w'.applyAll g events) := by
  induction events generalizing w w' with
  | nil => exact ⟨rfl, h⟩
  | cons event rest ih =>
    obtain ⟨hanswer, hrest⟩ := h.apply g event
    rw [applyAll_cons, applyAll_cons, hanswer]
    split
    · exact ⟨rfl, hrest⟩
    · exact ih hrest

theorem withStore_store (w : Workspace) (g : GraphId) : w.withStore g (w.store g) = w := by
  have hgraphs : w.graphs.modify g (fun graph => ⟨w.store g, graph.subscribers⟩) = w.graphs := by
    refine List.ext_getElem? (fun k => ?_)
    rw [List.getElem?_modify]
    split
    · next hk =>
      subst hk
      rw [Workspace.store]
      cases w.graphs[g]? <;> rfl
    · exact id_map _
  rw [withStore, hgraphs]

theorem alike_settle_of_quiet (hs : o.store = w.store g)
    (hquiet : ∀ news, o.event = some news → news.edge? = none) : w.Alike (w.settle g o) := by
  unfold Workspace.settle
  rw [hs, withStore_store]
  cases hnews : o.event with
  | none => exact .refl w
  | some news =>
    dsimp only
    rw [announce_eq_recordAll (hquiet news hnews)]
    exact w.alike_recordAll g news

theorem eq_of_apply_error {e : Error} (he : (w.apply g event).2 = .error e) :
    (w.apply g event).1 = w := by
  unfold Workspace.apply at he ⊢
  split at he
  · rfl
  · cases he

theorem Holds.apply (hw : w.Holds g Store.WellFormed) (event : Event) :
    (w.apply g event).1.Holds g Store.WellFormed := by
  unfold Workspace.apply
  split
  · exact hw
  · next o ha => exact (holds_absorbs hw.graph hw.store ha).imp (fun _ => And.left)

/-- The second delivery in a row answers like the first and can only be recorded. -/
theorem Holds.matches_apply (hw : w.Holds g Store.WellFormed) (event : Event) :
    Matches (w.apply g event) ((w.apply g event).1.apply g event) := by
  cases ha : (w.store g).apply event with
  | error e =>
    have hfails : w.apply g event = (w, .error e) := by rw [Workspace.apply, ha]
    have hagain : (w.apply g event).1.apply g event = w.apply g event := by
      rw [hfails]
      exact hfails
    rw [hagain]
    exact .refl _
  | ok o =>
    have hdone : w.apply g event = (w.settle g o, .ok ()) := by rw [Workspace.apply, ha]
    obtain ⟨-, again, hagain, hstore, hquiet⟩ := (holds_absorbs hw.graph hw.store ha).store
    have hagain : (w.settle g o).apply g event = ((w.settle g o).settle g again, .ok ()) := by
      rw [Workspace.apply, hagain]
    rw [hdone]
    exact hagain ▸ ⟨rfl, alike_settle_of_quiet hstore hquiet⟩

/-- Repeats changes one after the other, also past those that fail. -/
def replay (w : Workspace) (g : GraphId) (events : List Event) : Workspace :=
  events.foldl (fun w event => (w.apply g event).1) w

/-- The events in their order, each as often again as the number beside it says. -/
def delivered (deliveries : List (Event × Nat)) : List Event :=
  deliveries.flatMap (fun d => List.replicate (d.2 + 1) d.1)

theorem Matches.trans {a b c : Workspace × Except Error Unit} (h : Matches a b)
    (h' : Matches b c) : Matches a c :=
  ⟨h'.answer.trans h.answer, h.alike.trans h'.alike⟩

/-- However often a change is delivered in a row, what comes behind it goes on as if it had been
delivered once. -/
theorem Holds.matches_replicate (hw : w.Holds g Store.WellFormed) (event : Event) (n : Nat)
    (rest : List Event) :
    Matches (w.applyAll g (event :: rest))
      (w.applyAll g (List.replicate (n + 1) event ++ rest)) := by
  induction n generalizing w with
  | zero => exact .refl _
  | succ n ih =>
    have htwice := hw.matches_apply event
    have hmore := ih (hw.apply event)
    rw [List.replicate_succ, List.cons_append, applyAll_cons w g event (_ ++ rest),
      applyAll_cons w g event rest]
    split
    · exact .refl _
    · next hok =>
      rw [applyAll_cons, htwice.answer, hok] at hmore
      exact (htwice.alike.applyAll g rest).trans hmore

theorem Holds.replay_replicate (hw : w.Holds g Store.WellFormed) (event : Event) (n : Nat) :
    (w.apply g event).1.Alike (w.replay g (List.replicate (n + 1) event)) := by
  induction n generalizing w with
  | zero => exact .refl _
  | succ n ih => exact (hw.matches_apply event).alike.trans (ih (hw.apply event))

theorem Alike.replay (h : w.Alike w') (g : GraphId) (events : List Event) :
    (w.replay g events).Alike (w'.replay g events) := by
  induction events generalizing w w' with
  | nil => exact h
  | cons event rest ih => exact ih (h.apply g event).alike

theorem Holds.matches_delivered (hw : w.Holds g Store.WellFormed)
    (deliveries : List (Event × Nat)) :
    Matches (w.applyAll g (deliveries.map Prod.fst)) (w.applyAll g (delivered deliveries)) := by
  induction deliveries generalizing w with
  | nil => exact .refl _
  | cons d rest ih =>
    refine Matches.trans ?_ (hw.matches_replicate d.1 d.2 (delivered rest))
    rw [List.map_cons, applyAll_cons, applyAll_cons]
    split
    · exact .refl _
    · exact ih (hw.apply d.1)

theorem Holds.replay_delivered (hw : w.Holds g Store.WellFormed)
    (deliveries : List (Event × Nat)) :
    (w.replay g (deliveries.map Prod.fst)).Alike (w.replay g (delivered deliveries)) := by
  induction deliveries generalizing w with
  | nil => exact .refl _
  | cons d rest ih =>
    have hsplit : w.replay g (delivered (d :: rest)) =
        (w.replay g (List.replicate (d.2 + 1) d.1)).replay g (delivered rest) :=
      List.foldl_append
    rw [hsplit]
    exact (ih (hw.apply d.1)).trans ((hw.replay_replicate d.1 d.2).replay g _)

/-- Duplicate delivery is harmless. On a graph whose store was reached from the empty one, with
whatever sinks, a change that is repeated twice in a row gives the same answer and the same stores,
entry for entry, as when it is repeated once, and one that fails changes nothing at all. So changes
that come any number of times in place end in the same stores as changes that come once, whether
repeating stops at the first that fails or goes on. -/
theorem duplicate_delivery_is_harmless {calls : List Call} (hg : g < w.graphs.length)
    (hs : w.store g = Store.empty.run calls) :
    (∀ event,
      let once := w.apply g event
      let twice := once.1.apply g event
      twice.2 = once.2 ∧ (∀ k, twice.1.store k = once.1.store k) ∧
        ∀ e, once.2 = .error e → once.1 = w) ∧
    ∀ deliveries : List (Event × Nat),
      let events := deliveries.map Prod.fst
      (w.applyAll g (delivered deliveries)).2 = (w.applyAll g events).2 ∧
      (∀ k, (w.applyAll g (delivered deliveries)).1.store k = (w.applyAll g events).1.store k) ∧
      ∀ k, (w.replay g (delivered deliveries)).store k = (w.replay g events).store k := by
  have hw : w.Holds g Store.WellFormed := ⟨hg, hs ▸ Store.wellFormed_empty.run calls⟩
  refine ⟨fun event => ?_, fun deliveries => ?_⟩
  · have htwice := hw.matches_apply event
    exact ⟨htwice.answer, htwice.alike.store, fun _ he => eq_of_apply_error he⟩
  · have hall := hw.matches_delivered deliveries
    exact ⟨hall.answer, hall.alike.store, (hw.replay_delivered deliveries).store⟩

/-- A loop that is delivered three times is counted once by the sink that writes to its vertex, and
the edge without a target fails each time. -/
theorem loop_is_delivered_thrice :
    let calls : List Call := [.perform (.setVertex "a" "Person" [])]
    let w := (((empty.addGraph (Store.empty.run calls)).1.addSink
      (some ⟨0, .makeEdge, "made"⟩)).1.subscribe 0 0)
    let deliveries : List (Event × Nat) := [(.makeEdge ⟨"a", "a", "knows"⟩, 2),
      (.makeEdge ⟨"a", "b", "knows"⟩, 1), (.createNode ⟨"b", "Robot", [("id", .null)]⟩, 1)]
    let replayed := w.replay 0 (delivered deliveries)
    0 < w.graphs.length ∧ w.store 0 = Store.empty.run calls ∧
      (w.applyAll 0 (delivered deliveries)).2 = .error (.missingVertex "b") ∧
      (∀ k, replayed.store k = (w.replay 0 (deliveries.map Prod.fst)).store k) ∧
      (replayed.store 0).vertices.values.map Vertex.id = ["a", "b"] := by
  intro calls w deliveries replayed
  have hg : 0 < w.graphs.length := by decide
  have hs : w.store 0 = Store.empty.run calls := rfl
  obtain ⟨-, hdeliveries⟩ := duplicate_delivery_is_harmless hg hs
  obtain ⟨hanswer, -, hstores⟩ := hdeliveries deliveries
  exact ⟨hg, hs, hanswer.trans rfl, hstores, by decide⟩

end Workspace

end PropertyGraph
