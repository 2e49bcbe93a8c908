import PropertyGraph.Store.Run
import PropertyGraph.Workspace.Basic

namespace PropertyGraph.Workspace

variable {w w' w'' : Workspace} {g : GraphId} {i j : SinkId} {event : Event} {a b : List Event}

/-- A sink that neither writes to the graph nor makes the recorder hear of another graph. -/
def Quiet (w : Workspace) (g : GraphId) (i j : SinkId) : Prop :=
  ∀ r, (w.sink j).reaction = some r → r.graph ≠ g ∧ i ∉ w.subscribers r.graph

/-- No subscriber of the graph disturbs what the recorder hears of it. -/
structure Calm (w : Workspace) (g : GraphId) (i : SinkId) : Prop where
  graph : g < w.graphs.length
  sink : i < w.sinks.length
  quiet : ∀ j ∈ w.subscribers g, w.Quiet g i j

/-- A calm graph of which the recorder hears each change once. -/
structure Watched (w : Workspace) (g : GraphId) (i : SinkId) : Prop extends w.Calm g i where
  once : (w.subscribers g).count i = 1

/-- Where all subscribers only record, nothing disturbs one of them that subscribed once. -/
theorem Watched.of_recorders (hg : g < w.graphs.length) (hi : i < w.sinks.length)
    (hr : ∀ j ∈ w.subscribers g, (w.sink j).reaction.isNone = true)
    (ho : (w.subscribers g).count i = 1) : w.Watched g i where
  graph := hg
  sink := hi
  quiet j hj r h := by
    have hn := hr j hj
    rw [h] at hn
    cases hn
  once := ho

/-- The second workspace is the first after the recorder has heard of the events, and possibly
sinks have written to other graphs. -/
structure Told (g : GraphId) (i : SinkId) (events : List Event) (w w' : Workspace) : Prop where
  graphs : w'.graphs.length = w.graphs.length
  sinks : w'.sinks.length = w.sinks.length
  subscribers : ∀ k, w'.subscribers k = w.subscribers k
  reaction : ∀ j, (w'.sink j).reaction = (w.sink j).reaction
  store : w'.store g = w.store g
  journal : (w'.sink i).journal = (w.sink i).journal ++ events

theorem Told.refl (g : GraphId) (i : SinkId) (w : Workspace) : Told g i [] w w :=
  ⟨rfl, rfl, fun _ => rfl, fun _ => rfl, rfl, (List.append_nil _).symm⟩

theorem Told.trans (hab : Told g i a w w') (hbc : Told g i b w' w'') :
    Told g i (a ++ b) w w'' where
  graphs := hbc.graphs.trans hab.graphs
  sinks := hbc.sinks.trans hab.sinks
  subscribers k := (hbc.subscribers k).trans (hab.subscribers k)
  reaction j := (hbc.reaction j).trans (hab.reaction j)
  store := hbc.store.trans hab.store
  journal := by rw [hbc.journal, hab.journal, List.append_assoc]

theorem Told.quiet (ht : Told g i a w w') (hq : w.Quiet g i j) : w'.Quiet g i j := by
  intro r hr
  rw [ht.subscribers]
  exact hq r ((ht.reaction j).symm.trans hr)

theorem sink_withSink (w : Workspace) (i j : SinkId) (sink : Sink) :
    (w.withSink i sink).sink j = if i = j ∧ j < w.sinks.length then sink else w.sink j := by
  simp only [Workspace.sink, withSink, List.getElem?_modify]
  by_cases hij : i = j
  · by_cases hj : j < w.sinks.length <;> simp [hij, hj]
  · simp [hij]

theorem subscribers_withStore (w : Workspace) (g k : GraphId) (s : Store) :
    (w.withStore g s).subscribers k = w.subscribers k := by
  simp only [subscribers, withStore, List.getElem?_modify]
  split <;> cases w.graphs[k]? <;> rfl

theorem store_withStore (hg : g < w.graphs.length) (s : Store) : (w.withStore g s).store g = s := by
  simp [store, withStore, hg]

theorem store_withStore_of_ne {k : GraphId} (hk : k ≠ g) (s : Store) :
    (w.withStore k s).store g = w.store g := by
  simp [store, withStore, hk]

theorem Told.withStore {k : GraphId} (hk : k ≠ g) (s : Store) :
    Told g i [] w (w.withStore k s) :=
  ⟨List.length_modify .., rfl, fun _ => subscribers_withStore .., fun _ => rfl,
    store_withStore_of_ne hk s, (List.append_nil _).symm⟩

/-- Writing a sink anew tells the recorder what the journal gains, if it is the recorder's. -/
theorem Told.withSink {sink : Sink} (hi : i < w.sinks.length)
    (hr : sink.reaction = (w.sink j).reaction)
    (hj : sink.journal = (w.sink j).journal ++ a) :
    Told g i (if j = i then a else []) w (w.withSink j sink) where
  graphs := rfl
  sinks := List.length_modify ..
  subscribers _ := rfl
  reaction k := by
    rw [sink_withSink]
    split
    · next he => rw [hr, he.1]
    · rfl
  store := rfl
  journal := by
    rw [sink_withSink]
    by_cases he : j = i
    · rw [if_pos ⟨he, hi⟩, if_pos he, hj, he]
    · rw [if_neg (fun h => he h.1), if_neg he, List.append_nil]

theorem Told.record (hi : i < w.sinks.length) (event : Event) (j : SinkId) :
    Told g i (if j = i then [event] else []) w (w.record event j) :=
  Told.withSink hi rfl rfl

theorem Told.recordAll (hi : i < w.sinks.length) {k : GraphId} (hk : i ∉ w.subscribers k)
    (event : Event) : Told g i [] w (w.recordAll k event) := by
  unfold Workspace.recordAll
  generalize w.subscribers k = l at hk
  induction l generalizing w with
  | nil => exact .refl g i w
  | cons j rest ih =>
    have hr := Told.record (g := g) hi event j
    rw [if_neg (fun he : j = i => hk (he ▸ List.mem_cons_self))] at hr
    exact hr.trans (ih (hr.sinks ▸ hi) (fun hm => hk (List.mem_cons_of_mem _ hm)))

theorem reaction_of_reactionTo? {sink : Sink} {r : Reaction} {e : Edge}
    (h : reactionTo? sink event = some (r, e)) : sink.reaction = some r := by
  unfold reactionTo? at h
  cases hr : sink.reaction with
  | none => simp [hr] at h
  | some r' =>
    cases he : event.edge? with
    | none => simp [hr, he] at h
    | some e' =>
      simp only [hr, he, Option.bind_eq_bind, Option.bind_some] at h
      split at h
      · cases h
        rfl
      · cases h

theorem Told.react (hi : i < w.sinks.length) (hq : w.Quiet g i j) (event : Event) :
    Told g i [] w (w.react event j) := by
  unfold Workspace.react
  dsimp only
  split
  · exact .refl g i w
  · next r e ha =>
    obtain ⟨hg, hn⟩ := hq r (reaction_of_reactionTo? ha)
    have hseen : Told g i (if j = i then [] else []) w
        (w.withSink j ⟨(w.sink j).journal, (w.sink j).reaction, (w.sink j).seen + 1⟩) :=
      Told.withSink hi rfl (List.append_nil _).symm
    rw [ite_self] at hseen
    split
    · exact hseen
    · next s update _ =>
      have hwrite := hseen.trans (Told.withStore hg s)
      refine hwrite.trans (Told.recordAll (hwrite.sinks ▸ hi) ?_ update)
      rw [hwrite.subscribers]
      exact hn

theorem Told.deliver (hi : i < w.sinks.length) (hq : w.Quiet g i j) (event : Event) :
    Told g i (if j = i then [event] else []) w (w.deliver event j) := by
  have hr := Told.record (g := g) hi event j
  have hd := hr.trans (Told.react (hr.sinks ▸ hi) (hr.quiet hq) event)
  rwa [List.append_nil] at hd

theorem Calm.told (hc : w.Calm g i) (ht : Told g i a w w') : w'.Calm g i where
  graph := ht.graphs ▸ hc.graph
  sink := ht.sinks ▸ hc.sink
  quiet j hj := ht.quiet (hc.quiet j (ht.subscribers g ▸ hj))

theorem Calm.announce (hc : w.Calm g i) (event : Event) :
    Told g i (List.replicate ((w.subscribers g).count i) event) w (w.announce g event) := by
  have hfold : ∀ (l : List SinkId) (w : Workspace), i < w.sinks.length →
      (∀ j ∈ l, w.Quiet g i j) →
      Told g i (List.replicate (l.count i) event) w (l.foldl (deliver event) w) := by
    intro l
    induction l with
    | nil => exact fun w _ _ => .refl g i w
    | cons j rest ih =>
      intro w hi hq
      have hd := Told.deliver hi (hq j List.mem_cons_self) event
      have ht := hd.trans (ih (deliver event w j) (hd.sinks ▸ hi)
        (fun k hk => hd.quiet (hq k (List.mem_cons_of_mem _ hk))))
      rw [List.count_cons, Nat.add_comm, ← List.replicate_append_replicate]
      by_cases he : j = i <;> simpa [he] using ht
  exact hfold (w.subscribers g) w hc.sink hc.quiet

theorem Calm.withStore (hc : w.Calm g i) (s : Store) : (w.withStore g s).Calm g i where
  graph := (List.length_modify ..).symm ▸ hc.graph
  sink := hc.sink
  quiet j hj := by
    rw [subscribers_withStore] at hj
    intro r hr
    rw [subscribers_withStore]
    exact hc.quiet j hj r hr

theorem Calm.settle (hc : w.Calm g i) (o : Outcome) :
    Told g i (o.event.toList.flatMap (List.replicate ((w.subscribers g).count i)))
      (w.withStore g o.store) (w.settle g o) := by
  unfold Workspace.settle
  cases o.event with
  | none => exact .refl g i _
  | some event =>
    have ha := (hc.withStore o.store).announce event
    rw [subscribers_withStore] at ha
    simpa using ha

/-- Changes that a store repeats without failing are repeated on a calm graph. -/
theorem Calm.applyAll (hc : w.Calm g i) {events : List Event} {t : Store}
    (ht : (w.store g).applyAll events = .ok t) :
    (w.applyAll g events).2 = .ok () ∧ (w.applyAll g events).1.store g = t := by
  induction events generalizing w with
  | nil =>
    cases ht
    exact ⟨rfl, rfl⟩
  | cons event rest ih =>
    rw [Store.applyAll] at ht
    rw [Workspace.applyAll, Workspace.apply]
    cases ha : (w.store g).apply event with
    | error e =>
      rw [ha] at ht
      cases ht
    | ok o =>
      rw [ha] at ht
      have hs := hc.settle o
      refine ih ((hc.withStore o.store).told hs) ?_
      rw [hs.store, store_withStore hc.graph]
      exact ht

theorem Watched.settle (hw : w.Watched g i) (o : Outcome) :
    Told g i o.event.toList (w.withStore g o.store) (w.settle g o) := by
  have hs := hw.toCalm.settle o
  rw [hw.once] at hs
  cases he : o.event <;> simpa [he] using hs

/-- A mutation changes the store as it does alone, and the recorder hears of the event if there
is one. -/
theorem Watched.perform (hw : w.Watched g i) (m : Mutation) :
    (w.perform g m).1.Watched g i ∧
    (w.perform g m).1.store g = (w.store g).after (.perform m) ∧
    ((w.perform g m).1.sink i).journal = (w.sink i).journal ++ (w.store g).news m := by
  rw [Workspace.perform, Store.after_perform, Store.news]
  cases (w.store g).perform m with
  | error e => exact ⟨hw, rfl, (List.append_nil _).symm⟩
  | ok o =>
    have hs := hw.settle o
    refine ⟨⟨(hw.toCalm.withStore o.store).told hs, ?_⟩, ?_, ?_⟩
    · rw [hs.subscribers, subscribers_withStore, hw.once]
    · rw [hs.store, store_withStore hw.graph]
    · exact hs.journal

/-- After a run the recorder holds the history of the store. -/
theorem Watched.run (hw : w.Watched g i) (ms : List Mutation) :
    (w.run g ms).Watched g i ∧
    (w.run g ms).store g = (w.store g).run (ms.map .perform) ∧
    ((w.run g ms).sink i).journal = (w.sink i).journal ++ (w.store g).history ms := by
  induction ms generalizing w with
  | nil => exact ⟨hw, rfl, (List.append_nil _).symm⟩
  | cons m rest ih =>
    obtain ⟨hp, hs, hj⟩ := hw.perform m
    obtain ⟨hr, hrs, hrj⟩ := ih hp
    refine ⟨hr, ?_, ?_⟩
    · rw [Workspace.run, List.foldl_cons, ← Workspace.run, hrs, hs]
      rfl
    · rw [Workspace.run, List.foldl_cons, ← Workspace.run, hrj, hj, hs, List.append_assoc]
      rfl

end PropertyGraph.Workspace
