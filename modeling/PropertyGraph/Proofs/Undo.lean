import PropertyGraph.Proofs.Reachable
import PropertyGraph.Proofs.Replay

namespace PropertyGraph

theorem Workspace.inverses_append (a b : List Event) :
    inverses (a ++ b) = inverses b ++ inverses a := by
  simp [inverses]

namespace Store

variable {s t u : Store} {m : Mutation} {o : Outcome} {e : Edge} {v : Vertex} {event : Event}

/-- A well-formed store with the records and the edges of another, in whatever order. -/
structure Resembles (t s : Store) : Prop where
  wellFormed : t.WellFormed
  vertex? : ∀ id, t.vertex? id = s.vertex? id
  hasEdge : ∀ e, t.hasEdge e = s.hasEdge e

/-- Events lead one store to a store like another. They leave the type index in order if it was,
provided that some condition holds. -/
def Restores (t : Store) (events : List Event) (s : Store) (condition : Prop) : Prop :=
  ∃ u, t.applyAll events = .ok u ∧ u.Resembles s ∧ (condition → t.Filed → u.Filed)

theorem mem_keys_congr (hv : ∀ id, t.vertex? id = s.vertex? id) {id : VertexId} :
    id ∈ t.vertices.keys ↔ id ∈ s.vertices.keys := by
  rw [← not_iff_not, ← vertex?_eq_none, ← vertex?_eq_none, hv]

theorem Filed.congr (hf : s.Filed) (hv : t.vertices = s.vertices) (hi : t.typeIndex = s.typeIndex) :
    t.Filed := by
  unfold Filed idsOf Store.vertex?
  rw [hv, hi]
  exact hf

/-- In a store that is in order, the bucket of a type holds the vertices of that type. -/
theorem WellFormed.mem_idsOf_iff (h : s.WellFormed) (hf : s.Filed) {type : String} {id : VertexId} :
    id ∈ s.idsOf (some type) ↔ ∃ v, s.vertex? id = some v ∧ v.type = type := by
  constructor
  · exact hf type id
  · rintro ⟨v, hv, rfl⟩
    exact h.indexed id v hv

theorem perform_setVertex_store (hv : v.Clean) (s : Store) :
    ∃ event, s.perform (.setVertex v.id v.type v.properties) =
      .ok ⟨s.stored v, .done, some event⟩ := by
  cases hp : s.vertex? v.id with
  | none =>
    rw [perform_setVertex_absent hp, hv.cleaned_eq]
    exact ⟨_, rfl⟩
  | some previous =>
    rw [perform_setVertex_present hp, hv.cleaned_eq]
    exact ⟨_, rfl⟩

theorem WellFormed.apply_makeEdge (h : s.WellFormed) (ho : e.origin ∈ s.vertices.keys)
    (ht : e.target ∈ s.vertices.keys) :
    ∃ o, s.apply (.makeEdge e) = .ok o ∧ o.store.WellFormed ∧ o.store.vertices = s.vertices ∧
      o.store.typeIndex = s.typeIndex ∧
      ∀ x, o.store.hasEdge x = (s.hasEdge x || decide (x = e)) := by
  have hp : s.apply (.makeEdge e) = _ := h.perform_setEdge ho ht
  rw [hp]
  by_cases he : s.hasEdge e = true
  · rw [if_pos he]
    refine ⟨_, rfl, h, rfl, rfl, ?_⟩
    intro x
    by_cases hx : x = e <;> simp [hx, he]
  · rw [if_neg he]
    exact ⟨_, rfl, h.linked ho ht (by simpa using he), rfl, rfl, hasEdge_linked s e⟩

/-- Edges between vertices that are there can all be made. -/
theorem WellFormed.applyAll_makeEdge (h : s.WellFormed) {es : List Edge}
    (hes : ∀ e ∈ es, e.origin ∈ s.vertices.keys ∧ e.target ∈ s.vertices.keys) :
    ∃ u, s.applyAll (es.map .makeEdge) = .ok u ∧ u.WellFormed ∧ u.vertices = s.vertices ∧
      u.typeIndex = s.typeIndex ∧ ∀ x, u.hasEdge x = (s.hasEdge x || decide (x ∈ es)) := by
  induction es generalizing s with
  | nil => exact ⟨s, rfl, h, rfl, rfl, by simp⟩
  | cons e rest ih =>
    obtain ⟨o, ha, ho, hov, hoi, hoe⟩ :=
      h.apply_makeEdge (hes e List.mem_cons_self).1 (hes e List.mem_cons_self).2
    have hrest : ∀ e ∈ rest,
        e.origin ∈ o.store.vertices.keys ∧ e.target ∈ o.store.vertices.keys := by
      intro x hx
      rw [hov]
      exact hes x (List.mem_cons_of_mem _ hx)
    obtain ⟨u, hu, huw, huv, hui, hue⟩ := ih ho hrest
    refine ⟨u, ?_, huw, huv.trans hov, hui.trans hoi, ?_⟩
    · rw [List.map_cons, applyAll, ha]
      exact hu
    · intro x
      rw [hue, hoe]
      simp [Bool.or_assoc]

theorem Resembles.restores_created (ht : t.Resembles (s.stored v)) (h : s.WellFormed)
    (absent : s.vertex? v.id = none) : t.Restores [.deleteNode v []] s True := by
  have hv : t.vertex? v.id = some v := by rw [ht.vertex?, vertex?_stored, if_pos rfl]
  have ha : t.apply (.deleteNode v []) = t.perform (.removeVertex v.id) := by
    rw [apply, mutationOf?, if_pos (hasVertex_of_vertex? hv)]
  rw [ht.wellFormed.perform_removeVertex_present hv] at ha
  refine ⟨_, applyAll_singleton ha, ⟨ht.wellFormed.without v.id v.type, ?_, ?_⟩, ?_⟩
  · intro id
    rw [vertex?_without, ht.vertex?, vertex?_stored]
    split
    · next hid => rw [hid, absent]
    · rfl
  · intro e
    rw [hasEdge_without, ht.hasEdge, h.hasEdge_stored]
    -- No edge of the store before ends at a vertex that was not there.
    cases hs : s.hasEdge e with
    | false => rfl
    | true =>
      have hn := vertex?_eq_none.mp absent
      have ho : e.origin ≠ v.id := fun he => hn (he ▸ (h.ends hs).1)
      have ht : e.target ≠ v.id := fun he => hn (he ▸ (h.ends hs).2)
      simp [avoids, ho, ht]
  · intro _ hf
    exact hf.without hv

theorem Resembles.restores_updated {previous : Vertex} (ht : t.Resembles (s.stored v))
    (h : s.WellFormed) (found : s.vertex? v.id = some previous) :
    t.Restores [.updateNode v previous] s (previous.type = v.type) := by
  have hid : previous.id = v.id := h.own_id _ _ found
  obtain ⟨event, hp⟩ := perform_setVertex_store (h.clean _ _ found) t
  have ha : t.apply (.updateNode v previous) = _ := hp
  refine ⟨_, applyAll_singleton ha, ⟨ht.wellFormed.stored (h.clean _ _ found), ?_, ?_⟩, ?_⟩
  · intro id
    rw [vertex?_stored, ht.vertex?, vertex?_stored, hid]
    split
    · next he => rw [he, found]
    · rfl
  · intro e
    rw [ht.wellFormed.hasEdge_stored, ht.hasEdge, h.hasEdge_stored]
  · intro hk hf
    refine hf.stored ?_
    intro w hw
    rw [hid, ht.vertex?, vertex?_stored, if_pos rfl] at hw
    cases hw
    exact hk.symm

/-- The vertex is back before its edges, so their ends are there when they are made. -/
theorem Resembles.restores_removed (ht : t.Resembles (s.without v.id v.type)) (h : s.WellFormed)
    (found : s.vertex? v.id = some v) :
    t.Restores (.createNode v :: (s.incidentEdges v.id).map .makeEdge) s True := by
  have hclean := h.clean _ _ found
  have hback := ht.wellFormed.stored hclean
  have hvertex : ∀ id, (t.stored v).vertex? id = s.vertex? id := by
    intro id
    rw [vertex?_stored, ht.vertex?, vertex?_without]
    split
    · next hid => rw [hid, found]
    · rfl
  have hends : ∀ e ∈ s.incidentEdges v.id,
      e.origin ∈ (t.stored v).vertices.keys ∧ e.target ∈ (t.stored v).vertices.keys := by
    intro e he
    rw [mem_keys_congr hvertex, mem_keys_congr hvertex]
    exact h.ends (h.mirrored.mem_incidentEdges.mp he).1
  obtain ⟨event, hp⟩ := perform_setVertex_store hclean t
  have ha : t.apply (.createNode v) = _ := hp
  obtain ⟨u, hu, huw, huv, hui, hue⟩ := hback.applyAll_makeEdge hends
  refine ⟨u, (applyAll_append (applyAll_singleton ha)).trans hu, ⟨huw, ?_, ?_⟩, ?_⟩
  · intro id
    rw [Store.vertex?, huv]
    exact hvertex id
  · intro e
    rw [hue, ht.wellFormed.hasEdge_stored, ht.hasEdge, hasEdge_without, Bool.eq_iff_iff]
    simp only [Bool.or_eq_true, Bool.and_eq_true, decide_eq_true_eq, h.mirrored.mem_incidentEdges,
      avoids]
    by_cases ho : e.origin = v.id <;> by_cases ht : e.target = v.id <;> simp [ho, ht]
  · intro _ hf
    refine (hf.stored ?_).congr huv hui
    intro w hw
    rw [ht.vertex?, vertex?_without, if_pos rfl] at hw
    cases hw

theorem Resembles.restores_made (ht : t.Resembles (s.linked e)) (absent : s.hasEdge e = false) :
    t.Restores [.deleteEdge e] s True := by
  have hm : t.hasEdge e = true := by
    rw [ht.hasEdge, hasEdge_linked]
    simp
  have ha : t.apply (.deleteEdge e) = _ := ht.wellFormed.perform_removeEdge e
  rw [if_pos hm] at ha
  have hw := ht.wellFormed.restrict (fun x => decide (x ≠ e))
  refine ⟨_, applyAll_singleton ha, ⟨hw, ht.vertex?, ?_⟩, fun _ hf => hf⟩
  intro x
  rw [hasEdge_restrict, ht.hasEdge, hasEdge_linked]
  by_cases hx : x = e <;> simp [hx, absent]

theorem Resembles.restores_deleted (ht : t.Resembles (s.restrict (fun x => decide (x ≠ e))))
    (h : s.WellFormed) (found : s.hasEdge e = true) : t.Restores [.makeEdge e] s True := by
  have hends : ∀ x ∈ [e], x.origin ∈ t.vertices.keys ∧ x.target ∈ t.vertices.keys := by
    intro x hx
    rw [List.mem_singleton.mp hx, mem_keys_congr ht.vertex?, mem_keys_congr ht.vertex?]
    exact h.ends found
  obtain ⟨u, hu, huw, huv, hui, hue⟩ := ht.wellFormed.applyAll_makeEdge hends
  refine ⟨u, hu, ⟨huw, ?_, ?_⟩, fun _ hf => hf.congr huv hui⟩
  · intro id
    rw [Store.vertex?, huv]
    exact ht.vertex? id
  · intro x
    rw [hue, ht.hasEdge, hasEdge_restrict]
    by_cases hx : x = e <;> simp [hx, found]

theorem Restores.imp {events : List Event} {p q : Prop} (hr : t.Restores events s p) (hq : q → p) :
    t.Restores events s q := by
  obtain ⟨u, hu, hs, hf⟩ := hr
  exact ⟨u, hu, hs, fun h => hf (hq h)⟩

/-- The inverse of an event takes any store that looks like the one behind the mutation to one
that looks like the one before. -/
theorem Effect.restores (he : Effect s m o) (hev : o.event = some event) (h : s.WellFormed)
    (ht : t.Resembles o.store) : t.Restores event.inverse s (s.keepsType m = true) := by
  cases he with
  | created v clean absent =>
    cases hev
    exact (ht.restores_created h absent).imp (fun _ => trivial)
  | updated previous v clean found kept =>
    cases hev
    exact (ht.restores_updated h found).imp kept
  | removed v found =>
    cases hev
    exact (ht.restores_removed h found).imp (fun _ => trivial)
  | made e origin target absent =>
    cases hev
    exact (ht.restores_made absent).imp (fun _ => trivial)
  | deleted e found =>
    cases hev
    exact (ht.restores_deleted h found).imp (fun _ => trivial)
  | unchanged => cases hev

theorem WellFormed.restores_news (h : s.WellFormed) (m : Mutation)
    (ht : t.Resembles (s.after (.perform m))) :
    t.Restores (Workspace.inverses (s.news m)) s (s.keepsType m = true) := by
  rw [after_perform] at ht
  rw [news]
  cases hp : s.perform m with
  | error e =>
    rw [hp] at ht
    exact ⟨t, rfl, ht, fun _ hf => hf⟩
  | ok o =>
    rw [hp] at ht
    have he := h.perform_effect hp
    cases hev : o.event with
    | none =>
      have hs : o.store = s := by
        cases he <;> cases hev
        rfl
      simp only [hev, Option.toList]
      exact ⟨t, rfl, hs ▸ ht, fun _ hf => hf⟩
    | some event =>
      have hi : Workspace.inverses [event] = event.inverse := List.append_nil _
      simp only [hev, Option.toList, hi]
      exact he.restores hev h ht

theorem Restores.trans {a b : List Event} {p q : Prop} (htu : t.Restores a u p)
    (hus : ∀ t : Store, t.Resembles u → t.Restores b s q) : t.Restores (a ++ b) s (p ∧ q) := by
  obtain ⟨t', ha, ht, hf⟩ := htu
  obtain ⟨u', hb, hs, hg⟩ := hus t' ht
  exact ⟨u', (applyAll_append ha).trans hb, hs, fun h hfiled => hg h.2 (hf h.1 hfiled)⟩

/-- The inverses of a history, last event first, lead back to where the run started. -/
theorem WellFormed.restores_history (h : s.WellFormed) (ms : List Mutation)
    (ht : t.Resembles (s.run (ms.map .perform))) :
    t.Restores (Workspace.inverses (s.history ms)) s (s.keepsTypes (ms.map .perform) = true) := by
  induction ms generalizing s with
  | nil => exact ⟨t, rfl, ht, fun _ hf => hf⟩
  | cons m rest ih =>
    have hlast := ih (h.after (.perform m)) ht
    have hall := hlast.trans (fun _ hu => h.restores_news m hu)
    rw [history, Workspace.inverses_append]
    refine hall.imp ?_
    intro hk
    rw [List.map_cons, keepsTypes, Bool.and_eq_true] at hk
    exact ⟨hk.2, hk.1⟩

theorem keepsTypes_append (s : Store) (a b : List Call) :
    s.keepsTypes (a ++ b) = (s.keepsTypes a && (s.run a).keepsTypes b) := by
  induction a generalizing s with
  | nil => rfl
  | cons c rest ih =>
    rw [List.cons_append, keepsTypes, keepsTypes, ih, Bool.and_assoc]
    rfl

end Store

namespace Workspace

variable {w : Workspace} {g : GraphId} {i : SinkId}

theorem Calm.takeJournal (hc : w.Calm g i) : (w.takeJournal i).1.Calm g i where
  graph := hc.graph
  sink := (List.length_modify ..).symm ▸ hc.sink
  quiet j hj := by
    intro r hr
    refine hc.quiet j hj r ?_
    rw [Workspace.takeJournal, sink_withSink] at hr
    split at hr
    · next he => rw [← hr, he.1]
    · exact hr

/-- Whatever a run from a reachable store recorded, undoing it answers without an error and
brings back the records and the edges, and the buckets of the types if no vertex ever changed its
type. -/
theorem undo_restores_store (hw : w.Watched g i) (hj : (w.sink i).journal = []) (calls : List Call)
    (hs : w.store g = Store.empty.run calls) (ms : List Mutation) :
    let x := w.run g ms
    let undone := x.undo g i
    let before := w.store g
    let after := undone.1.store g
    undone.2 = .ok (x.sink i).journal.length ∧
    (∀ id, after.vertex? id = before.vertex? id) ∧
    (∀ e, after.hasEdge e = before.hasEdge e) ∧
    (Store.empty.keepsTypes (calls ++ ms.map .perform) = true → ∀ type v,
      v ∈ (after.idsOf (some type)).filterMap after.vertex? ↔
        v ∈ (before.idsOf (some type)).filterMap before.vertex?) := by
  intro x undone before after
  obtain ⟨hx, hxs, hxj⟩ : x.Watched g i ∧ x.store g = (w.store g).run (ms.map .perform) ∧
    (x.sink i).journal = (w.sink i).journal ++ (w.store g).history ms := hw.run ms
  rw [hj, List.nil_append] at hxj
  have hb : before = Store.empty.run calls := hs
  have hbefore : before.WellFormed := by
    rw [hb]
    exact Store.wellFormed_empty.run calls
  have hend : (x.store g).Resembles (before.run (ms.map .perform)) := by
    rw [hxs]
    exact ⟨hbefore.run _, fun _ => rfl, fun _ => rfl⟩
  obtain ⟨u, hu, hsame, hfiled⟩ := hbefore.restores_history ms hend
  rw [← hxj] at hu
  obtain ⟨hok, hstore⟩ := hx.toCalm.takeJournal.applyAll hu
  have hafter : after = u := hstore
  refine ⟨?_, ?_, ?_, ?_⟩
  · have hanswer : undone.2 = ((x.takeJournal i).1.applyAll g (inverses (x.sink i).journal)).2.map
        (fun _ => (x.sink i).journal.length) := rfl
    rw [hanswer, hok]
    rfl
  · rw [hafter]
    exact hsame.vertex?
  · rw [hafter]
    exact hsame.hasEdge
  · intro hk type v
    rw [Store.keepsTypes_append, Bool.and_eq_true, ← hb] at hk
    have hf : before.Filed := by
      rw [hb]
      exact Store.filed_empty.run Store.wellFormed_empty hk.1
    have hg : u.Filed := by
      refine hfiled hk.2 ?_
      rw [hxs]
      exact hf.run hbefore hk.2
    rw [hafter]
    simp only [List.mem_filterMap, hsame.wellFormed.mem_idsOf_iff hg, hbefore.mem_idsOf_iff hf,
      hsame.vertex?]

theorem removed_vertex_comes_back :
    let calls : List Call := [.perform (.setVertex "a" "Person" []),
      .perform (.setVertex "b" "Person" []), .perform (.setEdge ⟨"a", "b", "knows"⟩),
      .perform (.setEdge ⟨"a", "a", "knows"⟩)]
    let w := (((empty.addGraph (Store.empty.run calls)).1.addSink none).1.subscribe 0 0)
    let ms : List Mutation := [.removeVertex "a", .setVertex "a" "Robot" [],
      .setEdge ⟨"b", "a", "built"⟩]
    let undone := (w.run 0 ms).undo 0 0
    w.Watched 0 0 ∧ (w.sink 0).journal = [] ∧ w.store 0 = Store.empty.run calls ∧
      Store.empty.keepsTypes (calls ++ ms.map .perform) = true ∧
      (∀ e, (undone.1.store 0).hasEdge e = (w.store 0).hasEdge e) ∧
      ∀ type v, v ∈ ((undone.1.store 0).idsOf (some type)).filterMap (undone.1.store 0).vertex? ↔
        v ∈ ((w.store 0).idsOf (some type)).filterMap (w.store 0).vertex? := by
  intro calls w ms undone
  have hw : w.Watched 0 0 := .of_recorders (by decide) (by decide) (by decide) (by decide)
  have hk : Store.empty.keepsTypes (calls ++ ms.map .perform) = true := by decide
  have hundo := undo_restores_store hw rfl calls rfl ms
  exact ⟨hw, rfl, rfl, hk, hundo.2.2.1, hundo.2.2.2 hk⟩

end Workspace

end PropertyGraph
