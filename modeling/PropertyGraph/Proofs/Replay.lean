import PropertyGraph.Proofs.Effect
import PropertyGraph.Proofs.Journal

namespace PropertyGraph

namespace Store

variable {s t : Store} {m : Mutation} {o : Outcome} {event : Event}

/-- An event says enough to bring about again exactly what the mutation behind it did. -/
theorem Effect.apply_event (he : Effect s m o) (hev : o.event = some event) (h : s.WellFormed) :
    s.apply event = .ok o := by
  cases he with
  | created v clean absent =>
    cases hev
    have hs := perform_setVertex_absent absent v.type v.properties
    rw [clean.cleaned_eq] at hs
    exact hs
  | updated previous v clean found kept =>
    cases hev
    have hs := perform_setVertex_present found v.type v.properties
    rw [clean.cleaned_eq] at hs
    exact hs
  | removed v found =>
    cases hev
    simp only [apply, mutationOf?, hasVertex_of_vertex? found, ↓reduceIte]
    exact h.perform_removeVertex_present found
  | made e origin target absent =>
    cases hev
    have hs := h.perform_setEdge origin target
    rw [absent, if_neg Bool.false_ne_true] at hs
    exact hs
  | deleted e found =>
    cases hev
    have hs := h.perform_removeEdge e
    rw [if_pos found] at hs
    exact hs
  | unchanged => cases hev

theorem applyAll_singleton (ha : s.apply event = .ok o) : s.applyAll [event] = .ok o.store := by
  rw [applyAll, ha]
  rfl

theorem applyAll_append {a b : List Event} (ha : s.applyAll a = .ok t) :
    s.applyAll (a ++ b) = t.applyAll b := by
  induction a generalizing s with
  | nil =>
    cases ha
    rfl
  | cons event rest ih =>
    rw [applyAll] at ha
    rw [List.cons_append, applyAll]
    cases hc : s.apply event with
    | error e =>
      rw [hc] at ha
      cases ha
    | ok o =>
      rw [hc] at ha
      exact ih ha

theorem WellFormed.applyAll_news (h : s.WellFormed) (m : Mutation) :
    s.applyAll (s.news m) = .ok (s.after (.perform m)) := by
  rw [news, after_perform]
  cases hp : s.perform m with
  | error e => rfl
  | ok o =>
    have he := h.perform_effect hp
    cases hev : o.event with
    | none =>
      cases he <;> cases hev
      rfl
    | some event =>
      simpa [hev] using applyAll_singleton (he.apply_event hev h)

/-- The history of a run leads a store through the same states as the run. -/
theorem WellFormed.replay (h : s.WellFormed) (ms : List Mutation) :
    s.applyAll (s.history ms) = .ok (s.run (ms.map .perform)) := by
  induction ms generalizing s with
  | nil => rfl
  | cons m rest ih =>
    rw [history, applyAll_append (h.applyAll_news m), ih (h.after _)]
    rfl

end Store

namespace Workspace

variable {w : Workspace} {g : GraphId} {i : SinkId}

theorem perform_answer (w : Workspace) (g : GraphId) (m : Mutation) :
    (w.perform g m).2 = ((w.store g).perform m).map Outcome.reply := by
  rw [perform]
  cases (w.store g).perform m <;> rfl

theorem store_addGraph (w : Workspace) (s : Store) :
    (w.addGraph s).1.store (w.addGraph s).2 = s := by
  simp [addGraph, store]

/-- Nothing has subscribed to a new graph yet. -/
theorem Calm.addGraph (hi : i < w.sinks.length) (s : Store) :
    (w.addGraph s).1.Calm (w.addGraph s).2 i where
  graph := by simp [Workspace.addGraph]
  sink := hi
  quiet j hj := by simp [Workspace.addGraph, subscribers] at hj

/-- The journal of a recorder that was there from the start gains one event for each mutation
that changes something and none for the others, and repeated on a new graph it gives the same
store, entry for entry. -/
theorem journal_rebuilds_store (hw : w.Watched g i) (hs : w.store g = .empty)
    (hj : (w.sink i).journal = []) (ms : List Mutation) :
    let x := w.run g ms
    let fresh := x.addGraph .empty
    let replayed := fresh.1.applyAll fresh.2 (x.sink i).journal
    (∀ m, match (x.perform g m).2 with
      | .error _ | .ok (.changed false) =>
        ((x.perform g m).1.sink i).journal = (x.sink i).journal
      | .ok _ => ∃ event, ((x.perform g m).1.sink i).journal = (x.sink i).journal ++ [event]) ∧
    replayed.2 = .ok () ∧ replayed.1.store fresh.2 = x.store g := by
  intro x fresh replayed
  obtain ⟨hx, hxs, hxj⟩ : x.Watched g i ∧ x.store g = (w.store g).run (ms.map .perform) ∧
    (x.sink i).journal = (w.sink i).journal ++ (w.store g).history ms := hw.run ms
  rw [hs] at hxs hxj
  rw [hj, List.nil_append] at hxj
  refine ⟨?_, ?_⟩
  · intro m
    have h : (x.store g).WellFormed := hxs ▸ Store.wellFormed_empty.run _
    rw [perform_answer, (hx.perform m).2.2, Store.news]
    cases hp : (x.store g).perform m with
    | error e => exact List.append_nil _
    | ok o =>
      cases h.perform_effect hp with
      | unchanged => exact List.append_nil _
      | created | updated | removed | made | deleted => exact ⟨_, rfl⟩
  · have hreplay : (fresh.1.store fresh.2).applyAll (x.sink i).journal = .ok (x.store g) := by
      rw [store_addGraph, hxj, hxs]
      exact Store.wellFormed_empty.replay ms
    exact (Calm.addGraph hx.sink .empty).applyAll hreplay

theorem retyped_vertex_is_rebuilt :
    let w := (((empty.addGraph .empty).1.addSink none).1.subscribe 0 0)
    let x := w.run 0 [.setVertex "a" "Person" [], .setVertex "b" "Person" [],
      .setEdge ⟨"a", "b", "knows"⟩, .setVertex "a" "Robot" [], .removeVertex "a"]
    let fresh := x.addGraph .empty
    w.Watched 0 0 ∧ w.store 0 = .empty ∧ (w.sink 0).journal = [] ∧
      (fresh.1.applyAll fresh.2 (x.sink 0).journal).1.store fresh.2 = x.store 0 := by
  intro w x fresh
  have hw : w.Watched 0 0 := .of_recorders (by decide) (by decide) (by decide) (by decide)
  exact ⟨hw, rfl, rfl, (journal_rebuilds_store hw rfl rfl _).2.2⟩

end Workspace

end PropertyGraph
