import PropertyGraph.Proofs.OpenCursor
import PropertyGraph.Proofs.TypeIndex

namespace PropertyGraph

/-- The item stands for the vertex: as its record, or as an instance with its id. -/
def Item.Shows (v : Vertex) : Item → Prop
  | edge _ => False
  | record shown => shown = v
  | viewed i => i.id = v.id

def Item.vertexId? : Item → Option VertexId
  | edge _ => none
  | record v => some v.id
  | viewed i => some i.id

theorem Item.Shows.vertexId?_eq {item : Item} {v : Vertex} (h : item.Shows v) :
    item.vertexId? = some v.id := by
  cases item with
  | edge e => cases h
  | record shown => exact congrArg (fun v => some v.id) h
  | viewed i => exact congrArg some h

namespace Workspace

variable {w : Workspace} {g : GraphId} {id : VertexId} {type : String}
  {before later schedule : List Happening}

def happened (w : Workspace) : List Happening → Workspace
  | [] => w
  | .call g c :: rest => (w.called (g, c)).happened rest
  | .pull :: rest => w.happened rest

/-- Whether no call gives a vertex of the graph, present at that time, another type. -/
def keepsTypes (g : GraphId) (w : Workspace) : List Happening → Bool
  | [] => true
  | .call k c :: rest =>
    let next := w.called (k, c)
    (w.store g).vertices.keys.all (fun id => ((next.store g).vertexType? id).all
      (fun type => (w.store g).vertexType? id = some type)) && next.keepsTypes g rest
  | .pull :: rest => w.keepsTypes g rest

/-- A call of the schedule makes a vertex that is not there, as one of the type. -/
def Recreates (w : Workspace) (g : GraphId) (id : VertexId) (type : String)
    (schedule : List Happening) : Prop :=
  ∃ before k c later, schedule = before ++ .call k c :: later ∧
    ((w.happened before).store g).vertexType? id = none ∧
    (((w.happened before).called (k, c)).store g).vertexType? id = some type

theorem keepsTypes_append (h : w.keepsTypes g (before ++ later) = true) :
    w.keepsTypes g before = true := by
  induction before generalizing w with
  | nil => rfl
  | cons happening before ih =>
    cases happening with
    | call k c =>
      rw [List.cons_append, keepsTypes, Bool.and_eq_true] at h
      rw [keepsTypes, Bool.and_eq_true]
      exact ⟨h.1, ih h.2⟩
    | pull => exact ih h

theorem Recreates.behind_call {k : GraphId} {c : Call}
    (h : (w.called (k, c)).Recreates g id type schedule) :
    w.Recreates g id type (.call k c :: schedule) := by
  obtain ⟨before, k', c', later, rfl, habsent, hmade⟩ := h
  exact ⟨.call k c :: before, k', c', later, rfl, habsent, hmade⟩

theorem Recreates.behind_pull (h : w.Recreates g id type schedule) :
    w.Recreates g id type (.pull :: schedule) := by
  obtain ⟨before, k, c, later, rfl, habsent, hmade⟩ := h
  exact ⟨.pull :: before, k, c, later, rfl, habsent, hmade⟩

/-- Behind calls that change no type a vertex has the type that it had, or a call has made it. -/
theorem type_behind (hk : w.keepsTypes g schedule = true)
    (ht : ((w.happened schedule).store g).vertexType? id = some type) :
    (w.store g).vertexType? id = some type ∨ w.Recreates g id type schedule := by
  induction schedule generalizing w with
  | nil => exact .inl ht
  | cons happening rest ih =>
    cases happening with
    | pull => exact (ih hk ht).imp_right .behind_pull
    | call k c =>
      rw [keepsTypes, Bool.and_eq_true, List.all_eq_true] at hk
      rcases ih hk.2 ht with hnext | hmade
      · cases hv : (w.store g).vertexType? id with
        | none => exact .inr ⟨[], k, c, rest, rfl, hv, hnext⟩
        | some old =>
          obtain ⟨v, hpresent, -⟩ := Option.map_eq_some_iff.mp hv
          have hkept := hk.1 id (Store.mem_keys_of_vertex? hpresent)
          rw [hnext, Option.all_some, decide_eq_true_eq, hv] at hkept
          exact .inl hkept
      · exact .inr hmade.behind_call

theorem moments_getElem? {k : Nat} {x : Workspace} (h : (w.moments schedule)[k]? = some x) :
    ∃ before later, schedule = before ++ .pull :: later ∧ (w.moments before).length = k ∧
      x = w.happened before := by
  induction schedule generalizing w k with
  | nil => cases h
  | cons happening rest ih =>
    cases happening with
    | call j c =>
      obtain ⟨before, later, rfl, hlen, hx⟩ := ih h
      exact ⟨.call j c :: before, later, rfl, hlen, hx⟩
    | pull =>
      cases k with
      | zero =>
        obtain rfl := Option.some.inj h
        exact ⟨[], rest, rfl, rfl, rfl⟩
      | succ k =>
        obtain ⟨before, later, rfl, hlen, hx⟩ := ih h
        exact ⟨.pull :: before, later, rfl, congrArg Nat.succ hlen, hx⟩

end Workspace

namespace Cursor

variable {w : Workspace} {g : GraphId} {ids : List VertexId} {steps : Nat}
  {moments : List Workspace}

/-- A cursor of a type that has been pulled some times: of records, or of instances of a model. -/
inductive Opened (g : GraphId) (ids : List VertexId) : View → Seq Workspace VertexId → Prop where
  | records (n : Nat) : Opened g ids (.record g) (.source (fun k => ids[k]?) n)
  | instances (r : RegistryId) (m : Model) (n : Nat) :
    Opened g ids (.typed r m) (present g (.source (fun k => ids[k]?) n))

variable {view : View} {s : Seq Workspace VertexId}

/-- Driven on, the cursor stays one of its ids, and takes the next of them that its sequence lets
through; if the view shows it, then as the vertex that is there. -/
theorem Opened.next (h : Opened g ids view s) (hw : (w.store g).WellFormed) (fuel : Nat) :
    match s.next w fuel with
    | .item id rest => Opened g ids view rest ∧ ∀ item, view.show? w id = some item →
        ∃ v, (w.store g).vertex? v.id = some v ∧ v.id ∈ ids ∧ item.Shows v
    | .ended rest => Opened g ids view rest
    | .outOfFuel rest => Opened g ids view rest := by
  cases h with
  | records n =>
    cases fuel with
    | zero => exact .records n
    | succ fuel =>
      cases hid : ids[n]? with
      | none =>
        simp only [Seq.next, Seq.step, hid]
        exact .records n
      | some id =>
        simp only [Seq.next, Seq.step, hid]
        refine ⟨.records (n + 1), fun item hshow => ?_⟩
        obtain ⟨v, hv, rfl⟩ := Option.map_eq_some_iff.mp hshow
        obtain rfl := hw.own_id id v hv
        exact ⟨v, hv, List.mem_of_getElem? hid, rfl⟩
  | instances r m n =>
    induction fuel generalizing n with
    | zero => exact .instances r m n
    | succ fuel ih =>
      cases hid : ids[n]? with
      | none =>
        simp only [Seq.next, present, Seq.step, hid]
        exact .instances r m n
      | some id =>
        cases hv : (w.store g).vertex? id with
        | none =>
          simp only [Seq.next, present, Seq.step, hid, hv, Option.map_none]
          exact ih (n + 1)
        | some v =>
          simp only [Seq.next, present, Seq.step, hid, hv, Option.map_some]
          refine ⟨.instances r m (n + 1), ?_⟩
          obtain rfl := hw.own_id id v hv
          rintro _ ⟨⟩
          exact ⟨v, hv, List.mem_of_getElem? hid, rfl⟩

theorem Opened.nextShown (h : Opened g ids view s) (hw : (w.store g).WellFormed)
    (steps fuel : Nat) :
    Opened g ids view (nextShown w view steps fuel s).2 ∧
      ∀ item, (nextShown w view steps fuel s).1 = some item →
        ∃ v, (w.store g).vertex? v.id = some v ∧ v.id ∈ ids ∧ item.Shows v := by
  induction fuel generalizing s with
  | zero => exact ⟨h, by rintro _ ⟨⟩⟩
  | succ fuel ih =>
    have hnext := h.next hw steps
    rw [Cursor.nextShown]
    cases hs : s.next w steps with
    | ended rest =>
      rw [hs] at hnext
      exact ⟨hnext, by rintro _ ⟨⟩⟩
    | outOfFuel rest =>
      rw [hs] at hnext
      exact ⟨hnext, by rintro _ ⟨⟩⟩
    | item id rest =>
      rw [hs] at hnext
      obtain ⟨hrest, hshown⟩ := hnext
      dsimp only
      cases hshow : view.show? w id with
      | some item =>
        refine ⟨hrest, ?_⟩
        rintro _ ⟨⟩
        exact hshown item hshow
      | none => exact ih hrest

/-- What the pulls of a cursor of a type hand out are vertices that are there at the moment, with
ids that the cursor had at the opening. -/
theorem Opened.pulls (h : Opened g ids view s) (hm : ∀ x ∈ moments, (x.store g).WellFormed) :
    ∀ p ∈ (vertices view s).pulls steps moments, ∀ item, p.answer = some item →
      ∃ v, (p.moment.store g).vertex? v.id = some v ∧ v.id ∈ ids ∧ item.Shows v := by
  induction moments generalizing s with
  | nil => exact fun _ hp => absurd hp List.not_mem_nil
  | cons w later ih =>
    obtain ⟨hw, hlater⟩ := List.forall_mem_cons.mp hm
    obtain ⟨hrest, hshown⟩ := h.nextShown hw steps steps
    rw [pulls_vertices]
    exact List.forall_mem_cons.mpr ⟨hshown, ih hrest hlater⟩

end Cursor

namespace Workspace

variable {w : Workspace} {g : GraphId} {calls : List Call} {schedule : List Happening}

/-- A cursor of a type that is pulled while calls change the graphs, none of them the type of a
present vertex. It hands out vertices that are there at the moment and had their ids in the bucket
of the type when it was opened. Each has the type that it had then, which is that of the cursor if
the calls before changed no type either, or a call made it again after it had gone. -/
theorem typed_cursor_keeps_type_unless_recreated (hs : w.store g = Store.empty.run calls)
    (hk : w.keepsTypes g schedule = true) {type : String} {c : Cursor}
    (hc : c = .ofVertices w g (some type) ∨
      ∃ r m, w.graphOf r = g ∧ m.type = type ∧ c = .ofModel w r m none)
    {steps k : Nat} {p : Pulled} {item : Item}
    (hp : (c.pulls steps (w.moments schedule))[k]? = some p) (ha : p.answer = some item) :
    ∃ before later v, schedule = before ++ .pull :: later ∧ (w.moments before).length = k ∧
      p.moment = w.happened before ∧ item.Shows v ∧
      (p.moment.store g).vertex? v.id = some v ∧ v.id ∈ (w.store g).idsOf (some type) ∧
      ((w.store g).vertexType? v.id = some v.type ∨ w.Recreates g v.id v.type before) ∧
      (Store.empty.keepsTypes calls = true → (w.store g).vertexType? v.id = some type) := by
  have hw : (w.store g).WellFormed := hs ▸ Store.wellFormed_empty.run calls
  have hopened : ∃ view s, c = .vertices view s ∧
      Cursor.Opened g ((w.store g).idsOf (some type)) view s := by
    rcases hc with rfl | ⟨r, m, rfl, rfl, rfl⟩
    · exact ⟨_, _, rfl, .records 0⟩
    · exact ⟨_, _, rfl, .instances r m 0⟩
  obtain ⟨view, s, rfl, hopened⟩ := hopened
  have hmoment : (((Cursor.vertices view s).pulls steps (w.moments schedule)).map
      Pulled.moment)[k]? = some p.moment := by
    rw [List.getElem?_map, hp]
    rfl
  rw [Cursor.moment_pulls] at hmoment
  obtain ⟨before, later, rfl, hlen, hbefore⟩ := moments_getElem? hmoment
  obtain ⟨v, hv, hid, hshows⟩ :=
    hopened.pulls (wellFormed_moments hw _) p (List.mem_of_getElem? hp) item ha
  refine ⟨before, later, v, rfl, hlen, hbefore, hshows, hv, hid, ?_, fun hkeep => ?_⟩
  · refine type_behind (keepsTypes_append hk) ?_
    rw [← hbefore, Store.vertexType?, hv]
    rfl
  · have hindexed : (w.store g).Indexed :=
      hs ▸ Store.indexed_empty.run Store.wellFormed_empty hkeep
    rw [hindexed, List.mem_filter, decide_eq_true_eq] at hid
    exact hid.2

/-- A robot that a cursor of persons hands out was a person at the opening, and a call has made it
before the pull. -/
theorem robot_was_made_by_a_call :
    let calls : List Call := [.perform (.setVertex "a" "Person" []),
      .perform (.setVertex "b" "Person" [])]
    let w := Workspace.mk [⟨Store.empty.run calls, []⟩] [] [] countedUuid
    let schedule : List Happening := [.pull, .call 0 (.perform (.removeVertex "b")),
      .call 0 (.perform (.setVertex "b" "Robot" [])), .pull]
    Store.empty.keepsTypes calls = true ∧ w.keepsTypes 0 schedule = true ∧
      ∃ before later, schedule = before ++ .pull :: later ∧ (w.moments before).length = 1 ∧
        (w.store 0).vertexType? "b" = some "Person" ∧ w.Recreates 0 "b" "Robot" before := by
  intro calls w schedule
  have hs : w.store 0 = Store.empty.run calls := rfl
  have hkeeps : Store.empty.keepsTypes calls = true := by decide
  have hk : w.keepsTypes 0 schedule = true := by decide
  have hsecond : ((Cursor.ofVertices w 0 (some "Person")).pulls 3 (w.moments schedule))[1]?.map
      (fun p => (p.answer.bind Item.vertexId?, (p.moment.store 0).vertexType? "b")) =
        some (some "b", some "Robot") := by decide
  obtain ⟨p, hp, hpair⟩ := Option.map_eq_some_iff.mp hsecond
  obtain ⟨hanswer, hnow⟩ := Prod.mk.inj hpair
  obtain ⟨item, ha, hid⟩ := Option.bind_eq_some_iff.mp hanswer
  obtain ⟨before, later, v, hschedule, hcount, -, hshows, hv, -, htype, hopening⟩ :=
    typed_cursor_keeps_type_unless_recreated hs hk (.inl rfl) hp ha
  have hb : v.id = "b" := Option.some.inj (hshows.vertexId?_eq.symm.trans hid)
  rw [hb] at hv htype hopening
  have hrobot : v.type = "Robot" := by
    rw [Store.vertexType?, hv] at hnow
    exact Option.some.inj hnow
  rw [hrobot] at htype
  refine ⟨hkeeps, hk, before, later, hschedule, hcount, hopening hkeeps,
    htype.resolve_left (fun hperson => ?_)⟩
  rw [hopening hkeeps] at hperson
  exact absurd hperson (by decide)

/-- The cursor of a type hands out a vertex of another type, as its record or as an instance of
the model, although no call has given a present vertex another type. -/
theorem recreated_vertex_comes_under_old_type :
    let calls : List Call := [.perform (.setVertex "a" "Person" []),
      .perform (.setVertex "b" "Person" [])]
    let person := Model.ofType "Person"
    let w := Workspace.mk [⟨Store.empty.run calls, []⟩] [] [⟨0, .empty, .uuid, 0⟩] countedUuid
    let schedule : List Happening := [.pull, .call 0 (.perform (.removeVertex "b")),
      .call 0 (.perform (.setVertex "b" "Robot" [])), .pull]
    Store.empty.keepsTypes calls = true ∧ w.keepsTypes 0 schedule = true ∧
      ∀ c ∈ [Cursor.ofVertices w 0 (some "Person"), Cursor.ofModel w 0 person none],
        (c.pulls 3 (w.moments schedule)).map
          (fun p => (p.answer.bind Item.vertexId?, (p.moment.store 0).vertexType? "b")) =
            [(some "a", some "Person"), (some "b", some "Robot")] := by
  decide

end Workspace

end PropertyGraph
