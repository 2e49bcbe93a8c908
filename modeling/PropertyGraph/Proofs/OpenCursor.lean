import PropertyGraph.Proofs.Delivery
import PropertyGraph.Proofs.Paths

namespace PropertyGraph

/-- What happens while a cursor is open: a call reaches a graph, or an item is pulled. -/
inductive Happening where
  | call (g : GraphId) (c : Call)
  | pull

/-- The moments at which items are pulled. -/
def Workspace.moments (w : Workspace) : List Happening → List Workspace
  | [] => []
  | .call g c :: rest => (w.called (g, c)).moments rest
  | .pull :: rest => w :: w.moments rest

/-- A pull of one item, which has no answer behind the end. -/
structure Pulled where
  moment : Workspace
  answer : Option Item

/-- The pulls at some moments, each driven for no more than `steps` steps. -/
def Cursor.pulls (steps : Nat) : List Workspace → Cursor → List Pulled
  | [], _ => []
  | w :: later, c =>
    let (items, rest) := c.pullWithin w steps 1
    ⟨w, items.head?⟩ :: rest.pulls steps later

/-- Pulls go through ids in their order: each passes over those that are not there at its moment
and hands out the record of the first that is. When all have been passed over, nothing is left. -/
inductive Passes (g : GraphId) : List VertexId → List Pulled → Prop where
  | idle (ids : List VertexId) : Passes g ids []
  | found {w : Workspace} {gone ids : List VertexId} {id : VertexId} {v : Vertex}
      {later : List Pulled} (absent : ∀ x ∈ gone, (w.store g).vertex? x = none)
      (present : (w.store g).vertex? id = some v) (rest : Passes g ids later) :
      Passes g (gone ++ id :: ids) (⟨w, some (.record v)⟩ :: later)
  | ended {w : Workspace} {gone : List VertexId} {later : List Pulled}
      (absent : ∀ x ∈ gone, (w.store g).vertex? x = none) (rest : Passes g [] later) :
      Passes g gone (⟨w, none⟩ :: later)

def recordsOf (pulls : List Pulled) : List Vertex :=
  pulls.filterMap (fun p => match p.answer with
    | some (.record v) => some v
    | _ => none)

/-- What the pulls hand out are records, each the one that the graph holds at the moment of its
pull under the id of the vertex, and no two of them with the same id. -/
structure Faithful (g : GraphId) (pulls : List Pulled) : Prop where
  current : ∀ p ∈ pulls, ∀ item, p.answer = some item →
    ∃ v, item = .record v ∧ (p.moment.store g).vertex? v.id = some v
  once : ((recordsOf pulls).map Vertex.id).Nodup

section Moments

variable {w : Workspace} {g : GraphId}

theorem store_of_length_le (h : w.graphs.length ≤ g) : w.store g = .empty := by
  rw [Workspace.store, List.getElem?_eq_none h]
  rfl

theorem wellFormed_called (hw : (w.store g).WellFormed) (gc : GraphId × Call) :
    ((w.called gc).store g).WellFormed := by
  by_cases hg : g < w.graphs.length
  · obtain ⟨changes, hu⟩ := Workspace.calls_unfold w [gc]
    obtain ⟨ms, hrun, -⟩ := hu.led hg
    rw [List.foldl_cons, List.foldl_nil] at hrun
    rw [hrun]
    exact hw.run _
  · have hlen : (w.called gc).graphs.length = w.graphs.length :=
      (Workspace.shaped_called w gc.1 gc.2).graphs
    rw [store_of_length_le (hlen.trans_le (Nat.le_of_not_lt hg))]
    exact Store.wellFormed_empty

theorem wellFormed_moments (hw : (w.store g).WellFormed) (schedule : List Happening) :
    ∀ x ∈ w.moments schedule, (x.store g).WellFormed := by
  induction schedule generalizing w with
  | nil => exact fun _ hx => absurd hx List.not_mem_nil
  | cons happening rest ih =>
    cases happening with
    | call k c => exact ih (wellFormed_called hw (k, c))
    | pull => exact List.forall_mem_cons.mpr ⟨hw, ih hw⟩

end Moments

namespace Seq

variable {ε α : Type} {s : Seq ε α} {a : α} {items : List α}

/-- The sequence is what is left of a list. -/
def Left (s : Seq ε α) (items : List α) : Prop :=
  ∃ (all : List α) (n : Nat), s = source (fun k => all[k]?) n ∧ all.drop n = items

theorem left_ofList (items : List α) : (ofList items : Seq ε α).Left items :=
  ⟨items, 0, rfl, rfl⟩

theorem Left.next_nil (h : s.Left []) (e : ε) (n : Nat) : s.next e (n + 1) = .ended s := by
  obtain ⟨all, k, rfl, hdrop⟩ := h
  simp [next, step, List.getElem?_eq_none (List.drop_eq_nil_iff.mp hdrop)]

theorem Left.next_cons (h : s.Left (a :: items)) :
    ∃ rest : Seq ε α, rest.Left items ∧ ∀ e n, s.next e (n + 1) = .item a rest := by
  obtain ⟨all, k, rfl, hdrop⟩ := h
  have hhead : all[k]? = some a := by rw [← List.head?_drop, hdrop, List.head?_cons]
  refine ⟨source (fun n => all[n]?) (k + 1), ⟨all, k + 1, rfl, ?_⟩, fun e n => ?_⟩
  · rw [← List.tail_drop, hdrop, List.tail_cons]
  · simp only [next, step, hhead]

variable [DecidableEq α] {kept : List α}

/-- The sequence drops what it has kept, and keeps what it lets through. -/
def Keeps (s : Seq ε α) (kept : List α) : Prop :=
  ∃ inner, s = distinct (fun a b => decide (a = b)) kept inner

theorem Keeps.next (hk : s.Keeps kept) (e : ε) (fuel : Nat) :
    match s.next e fuel with
    | .item a rest => a ∉ kept ∧ rest.Keeps (a :: kept)
    | .ended rest => rest.Keeps kept
    | .outOfFuel rest => rest.Keeps kept := by
  induction fuel generalizing s with
  | zero => exact hk
  | succ fuel ih =>
    obtain ⟨inner, rfl⟩ := hk
    rw [Seq.next, step]
    cases inner.step e with
    | done => exact ⟨inner, rfl⟩
    | skip rest => exact ih ⟨rest, rfl⟩
    | yield a rest =>
      by_cases ha : a ∈ kept
      · have hany : kept.any (fun b => decide (a = b)) = true := by simpa using ha
        simp only [hany, if_true]
        exact ih ⟨rest, rfl⟩
      · have hany : kept.any (fun b => decide (a = b)) = false := by
          rw [List.any_eq_false]
          rintro b hb hab
          obtain rfl := of_decide_eq_true hab
          exact ha hb
        simp only [hany, Bool.false_eq_true, if_false]
        exact ⟨ha, rest, rfl⟩

end Seq

namespace Passes

variable {g : GraphId} {ids : List VertexId} {pulls : List Pulled}

theorem faithful (hp : Passes g ids pulls) (hn : ids.Nodup)
    (hw : ∀ p ∈ pulls, (p.moment.store g).WellFormed) :
    Faithful g pulls ∧ ∀ v ∈ recordsOf pulls, v.id ∈ ids := by
  induction hp with
  | idle => exact ⟨⟨fun _ hp => absurd hp List.not_mem_nil, .nil⟩, fun _ hv => nomatch hv⟩
  | @found w gone ids id v later absent present _ ih =>
    obtain ⟨hn, hfresh⟩ := List.nodup_cons.mp (List.nodup_append.mp hn).2.1
    obtain ⟨hw, hlater⟩ := List.forall_mem_cons.mp hw
    obtain ⟨hfaithful, hin⟩ := ih hfresh hlater
    obtain rfl := hw.own_id id v present
    refine ⟨⟨List.forall_mem_cons.mpr ⟨?_, hfaithful.current⟩, ?_⟩, List.forall_mem_cons.mpr
      ⟨by simp, fun x hx => List.mem_append_right _ (List.mem_cons_of_mem _ (hin x hx))⟩⟩
    · rintro _ ⟨⟩
      exact ⟨v, rfl, present⟩
    · refine List.nodup_cons.mpr ⟨fun hmem => ?_, hfaithful.once⟩
      obtain ⟨x, hx, hid⟩ := List.mem_map.mp hmem
      exact hn (hid ▸ hin x hx)
  | @ended w gone later absent _ ih =>
    obtain ⟨hfaithful, hin⟩ := ih .nil (List.forall_mem_cons.mp hw).2
    refine ⟨⟨List.forall_mem_cons.mpr ⟨(fun _ h => nomatch h), hfaithful.current⟩,
      hfaithful.once⟩, fun v hv => nomatch hin v hv⟩

end Passes

namespace Cursor

variable {steps : Nat} {w : Workspace} {g : GraphId} {moments : List Workspace}

section Edges

variable {s : Seq Workspace Edge} {es : List Edge}

/-- A cursor of edges answers with the edges that it was opened with, whatever happens. -/
theorem answer_pulls_edges (hl : s.Left es) (hsteps : 0 < steps) {k : Nat} {p : Pulled}
    (hp : ((edges s).pulls steps moments)[k]? = some p) : p.answer = es[k]?.map .edge := by
  obtain ⟨steps, rfl⟩ := Nat.exists_eq_succ_of_ne_zero hsteps.ne'
  induction moments generalizing s es k with
  | nil => cases hp
  | cons w later ih =>
    cases es with
    | nil =>
      have hpulls : (edges s).pulls (steps + 1) (w :: later) =
          ⟨w, none⟩ :: (edges s).pulls (steps + 1) later := by
        simp [pulls, pullWithin, Seq.take, hl.next_nil]
      rw [hpulls] at hp
      cases k with
      | zero =>
        obtain rfl := Option.some.inj hp
        rfl
      | succ k => exact ih (k := k) hl hp
    | cons e es =>
      obtain ⟨rest, hrest, hnext⟩ := hl.next_cons
      have hpulls : (edges s).pulls (steps + 1) (w :: later) =
          ⟨w, some (.edge e)⟩ :: (edges rest).pulls (steps + 1) later := by
        simp [pulls, pullWithin, Seq.take, hnext]
      rw [hpulls] at hp
      cases k with
      | zero =>
        obtain rfl := Option.some.inj hp
        rfl
      | succ k => exact ih hrest hp

theorem delivers_edges (w : Workspace) (hl : s.Left es) :
    (edges s).Delivers w (es.map .edge) := by
  refine ⟨1, fun steps hsteps count => ?_⟩
  obtain ⟨steps, rfl⟩ := Nat.exists_eq_add_of_le' hsteps
  have htake : (s.take w (steps + 1) count).1 = es.take count := by
    induction count generalizing s es with
    | zero => rfl
    | succ count ih =>
      cases es with
      | nil => simp [Seq.take, hl.next_nil]
      | cons e es =>
        obtain ⟨rest, hrest, hnext⟩ := hl.next_cons
        simp [Seq.take, hnext, ih hrest]
  simp only [pullWithin, htake, List.map_take]

end Edges

section Vertices

variable {s : Seq Workspace VertexId} {ids kept : List VertexId}

theorem pulls_vertices (steps : Nat) (w : Workspace) (later : List Workspace) (view : View)
    (s : Seq Workspace VertexId) :
    (vertices view s).pulls steps (w :: later) =
      ⟨w, (nextShown w view steps steps s).1⟩ ::
        (vertices view (nextShown w view steps steps s).2).pulls steps later := by
  rw [pulls, pullWithin, takeShown]
  rcases nextShown w view steps steps s with ⟨_ | item, rest⟩ <;> rfl

theorem nextShown_left (hl : s.Left ids) (hsteps : 0 < steps) {fuel : Nat}
    (hfuel : ids.length < fuel) :
    (∃ gone id v later rest, ids = gone ++ id :: later ∧
        (∀ x ∈ gone, (w.store g).vertex? x = none) ∧ (w.store g).vertex? id = some v ∧
        rest.Left later ∧ nextShown w (.record g) steps fuel s = (some (.record v), rest)) ∨
      ((∀ x ∈ ids, (w.store g).vertex? x = none) ∧
        ∃ rest, rest.Left [] ∧ nextShown w (.record g) steps fuel s = (none, rest)) := by
  obtain ⟨steps, rfl⟩ := Nat.exists_eq_succ_of_ne_zero hsteps.ne'
  induction ids generalizing s fuel with
  | nil =>
    obtain ⟨fuel, rfl⟩ := Nat.exists_eq_succ_of_ne_zero (Nat.ne_zero_of_lt hfuel)
    refine .inr ⟨by simp, s, hl, ?_⟩
    simp only [nextShown, hl.next_nil]
  | cons id ids ih =>
    obtain ⟨fuel, rfl⟩ := Nat.exists_eq_succ_of_ne_zero (Nat.ne_zero_of_lt hfuel)
    obtain ⟨rest, hrest, hnext⟩ := hl.next_cons
    cases hv : (w.store g).vertex? id with
    | some v =>
      refine .inl ⟨[], id, v, ids, rest, rfl, by simp, hv, hrest, ?_⟩
      simp only [nextShown, hnext, View.show?, hv, Option.map_some]
    | none =>
      have hpass : nextShown w (.record g) (steps + 1) (fuel + 1) s =
          nextShown w (.record g) (steps + 1) fuel rest := by
        simp only [nextShown, hnext, View.show?, hv, Option.map_none]
      rw [hpass]
      rcases ih hrest (by simpa using hfuel) with
        ⟨gone, x, v, later, rest', rfl, habsent, hpresent, hleft, hshown⟩ | ⟨habsent, hended⟩
      · exact .inl ⟨id :: gone, x, v, later, rest', rfl,
          List.forall_mem_cons.mpr ⟨hv, habsent⟩, hpresent, hleft, hshown⟩
      · exact .inr ⟨List.forall_mem_cons.mpr ⟨hv, habsent⟩, hended⟩

theorem passes_pulls (hl : s.Left ids) (hsteps : ids.length < steps) :
    Passes g ids ((vertices (.record g) s).pulls steps moments) := by
  induction moments generalizing s ids with
  | nil => exact .idle ids
  | cons w later ih =>
    rw [pulls_vertices]
    rcases nextShown_left (w := w) (g := g) hl (Nat.zero_lt_of_lt hsteps) hsteps with
      ⟨gone, id, v, ids', rest, rfl, habsent, hpresent, hleft, hshown⟩ |
      ⟨habsent, rest, hleft, hshown⟩
    · rw [hshown]
      have hshorter : ids'.length < steps := by
        rw [List.length_append, List.length_cons] at hsteps
        omega
      exact .found habsent hpresent (ih hleft hshorter)
    · rw [hshown]
      exact .ended habsent (ih hleft (Nat.zero_lt_of_lt hsteps))

theorem nextShown_keeps (w : Workspace) (view : View) (steps : Nat) (hk : s.Keeps kept)
    (fuel : Nat) :
    ∃ kept', kept ⊆ kept' ∧ (nextShown w view steps fuel s).2.Keeps kept' ∧
      ∀ item, (nextShown w view steps fuel s).1 = some item →
        ∃ id, view.show? w id = some item ∧ id ∉ kept ∧ id ∈ kept' := by
  induction fuel generalizing s kept with
  | zero => exact ⟨kept, List.Subset.refl _, hk, by rintro _ ⟨⟩⟩
  | succ fuel ih =>
    have hnext := hk.next w steps
    rw [nextShown]
    cases hs : s.next w steps with
    | ended rest =>
      rw [hs] at hnext
      exact ⟨kept, List.Subset.refl _, hnext, by rintro _ ⟨⟩⟩
    | outOfFuel rest =>
      rw [hs] at hnext
      exact ⟨kept, List.Subset.refl _, hnext, by rintro _ ⟨⟩⟩
    | item id rest =>
      rw [hs] at hnext
      obtain ⟨hfresh, hrest⟩ := hnext
      cases hshow : view.show? w id with
      | some item =>
        dsimp only
        rw [hshow]
        refine ⟨id :: kept, List.subset_cons_self _ _, hrest, ?_⟩
        rintro _ ⟨⟩
        exact ⟨id, hshow, hfresh, List.mem_cons_self⟩
      | none =>
        obtain ⟨kept', hsub, hleft, hitem⟩ := ih hrest
        dsimp only
        rw [hshow]
        refine ⟨kept', fun x hx => hsub (List.mem_cons_of_mem _ hx), hleft, fun item h => ?_⟩
        obtain ⟨x, hx, hnew, hin⟩ := hitem item h
        exact ⟨x, hx, fun hmem => hnew (List.mem_cons_of_mem _ hmem), hin⟩

/-- The records that a cursor hands out are those of the moment, and of each id only one comes. -/
theorem faithful_pulls_keeps (hm : ∀ x ∈ moments, (x.store g).WellFormed) (hk : s.Keeps kept) :
    Faithful g ((vertices (.record g) s).pulls steps moments) ∧
      ∀ v ∈ recordsOf ((vertices (.record g) s).pulls steps moments), v.id ∉ kept := by
  induction moments generalizing s kept with
  | nil => exact ⟨⟨fun _ hp => absurd hp List.not_mem_nil, .nil⟩, fun _ hv => nomatch hv⟩
  | cons w later ih =>
    obtain ⟨hw, hlater⟩ := List.forall_mem_cons.mp hm
    obtain ⟨kept', hsub, hleft, hitem⟩ := nextShown_keeps w (.record g) steps hk steps
    obtain ⟨hfaithful, hnew⟩ := ih hlater hleft
    rw [pulls_vertices]
    cases ha : (nextShown w (.record g) steps steps s).1 with
    | none =>
      refine ⟨⟨List.forall_mem_cons.mpr ⟨(fun _ h => nomatch h), hfaithful.current⟩,
        hfaithful.once⟩, fun v hv hin => hnew v hv (hsub hin)⟩
    | some item =>
      obtain ⟨id, hshow, hfresh, hin⟩ := hitem item ha
      obtain ⟨v, hv, rfl⟩ := Option.map_eq_some_iff.mp hshow
      obtain rfl := hw.own_id id v hv
      refine ⟨⟨List.forall_mem_cons.mpr ⟨?_, hfaithful.current⟩, ?_⟩,
        List.forall_mem_cons.mpr ⟨hfresh, fun x hx hk' => hnew x hx (hsub hk')⟩⟩
      · rintro _ ⟨⟩
        exact ⟨v, rfl, hv⟩
      · refine List.nodup_cons.mpr ⟨fun hmem => ?_, hfaithful.once⟩
        obtain ⟨x, hx, hid⟩ := List.mem_map.mp hmem
        exact hnew x hx (hid ▸ hin)

theorem moment_pulls (c : Cursor) : (c.pulls steps moments).map Pulled.moment = moments := by
  induction moments generalizing c with
  | nil => rfl
  | cons w later ih =>
    rw [pulls, List.map_cons, ih]

end Vertices

end Cursor

namespace Workspace

/-- Cursors that are opened on a graph and pulled while calls go on. The cursor of all vertices
goes through the ids that were there when it was opened, and hands out those that are there when
their turn comes. It and a traversal of at least one hop hand out the records of the moment, and no
vertex twice. The cursors of edges answer with what they would have handed out when they were
opened. -/
theorem open_cursors_follow_graph {w : Workspace} {g : GraphId} {calls : List Call}
    (hs : w.store g = Store.empty.run calls) (schedule : List Happening) :
    (∀ steps, ((w.store g).idsOf none).length < steps →
      let pulls := (Cursor.ofVertices w g none).pulls steps (w.moments schedule)
      Passes g ((w.store g).idsOf none) pulls ∧ Faithful g pulls) ∧
    (∀ steps t seeds, t.hops ≠ [] →
      Faithful g ((Cursor.ofTraversal w (.record g) t seeds).pulls steps (w.moments schedule))) ∧
    ∀ steps id other, 0 < steps → ∀ es ∈ [(w.store g).outEdges id, (w.store g).inEdges id,
        (w.store g).interEdges id other, (w.store g).allEdges id],
      (Cursor.ofEdges es).Delivers w (es.map .edge) ∧
      ∀ (k : Nat) p, ((Cursor.ofEdges es).pulls steps (w.moments schedule))[k]? = some p →
        p.answer = (es.map Item.edge)[k]? := by
  have hmoments : ∀ x ∈ w.moments schedule, (x.store g).WellFormed :=
    wellFormed_moments (hs ▸ Store.wellFormed_empty.run calls) schedule
  refine ⟨fun steps hsteps => ?_, fun steps t seeds ht => ?_,
    fun steps id other hsteps es _ => ⟨?_, fun k p hp => ?_⟩⟩
  · have hpasses : Passes g ((w.store g).idsOf none)
        ((Cursor.ofVertices w g none).pulls steps (w.moments schedule)) :=
      Cursor.passes_pulls (Seq.left_ofList _) hsteps
    refine ⟨hpasses, (hpasses.faithful (w.store g).vertices.nodup fun p hp => ?_).1⟩
    have hmem := List.mem_map_of_mem (f := Pulled.moment) hp
    rw [Cursor.moment_pulls] at hmem
    exact hmoments p.moment hmem
  · obtain ⟨h, hops, hh⟩ := List.exists_cons_of_ne_nil ht
    have hkeeps : (t.startingWith (fun w => w.store g) seeds).Keeps [] := by
      rw [Traversal.startingWith, hh]
      exact ⟨_, rfl⟩
    exact (Cursor.faithful_pulls_keeps hmoments hkeeps).1
  · exact Cursor.delivers_edges w (Seq.left_ofList es)
  · rw [List.getElem?_map]
    exact Cursor.answer_pulls_edges (Seq.left_ofList es) hsteps hp

/-- A vertex that goes is passed over. One that comes back, and is reached again, does not come a
second time. -/
theorem returned_vertex_comes_once :
    let calls : List Call := [.perform (.setVertex "a" "Person" []),
      .perform (.setVertex "b" "Person" []), .perform (.setVertex "c" "Person" []),
      .perform (.setEdge ⟨"a", "b", "knows"⟩), .perform (.setEdge ⟨"a", "c", "knows"⟩)]
    let w := Workspace.mk [⟨Store.empty.run calls, []⟩] [] [] countedUuid
    let schedule : List Happening := [.pull, .call 0 (.perform (.removeVertex "b")),
      .call 0 (.perform (.removeVertex "a")), .call 0 (.perform (.setVertex "a" "Robot" [])),
      .call 0 (.perform (.setEdge ⟨"a", "c", "knows"⟩)), .pull, .pull]
    let all := (Cursor.ofVertices w 0 none).pulls 8 (w.moments schedule)
    let origins := (Cursor.ofTraversal w (.record 0) (Traversal.start.via "knows")
      (.ofList ["b", "c"])).pulls 8 (w.moments schedule)
    Passes 0 ["a", "b", "c"] all ∧ (recordsOf all).map Vertex.id = ["a", "c"] ∧
      Faithful 0 origins ∧ (recordsOf origins).map Vertex.id = ["a"] := by
  intro calls w schedule all origins
  have hs : w.store 0 = Store.empty.run calls := rfl
  obtain ⟨hall, horigins, -⟩ := open_cursors_follow_graph hs schedule
  exact ⟨(hall 8 (by decide)).1, by decide, horigins 8 _ _ (by simp [Traversal.via]), by decide⟩

end Workspace

end PropertyGraph
