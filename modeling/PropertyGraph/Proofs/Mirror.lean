import PropertyGraph.Proofs.Outlined
import PropertyGraph.Proofs.Paths
import PropertyGraph.Workspace.Run

namespace PropertyGraph

/-- The edges of one type lie exactly against the edges of another. -/
def Opposite (c m : String) (edges : Finset Edge) : Prop :=
  ∀ a b, (⟨a, b, c⟩ : Edge) ∈ edges ↔ (⟨b, a, m⟩ : Edge) ∈ edges

variable {c m : String} {o : Outline} {d : Connection}

section Opposite

variable {es fs : Finset Edge}

theorem opposite_empty (c m : String) : Opposite c m ∅ := fun _ _ => by simp

theorem Opposite.union (he : Opposite c m es) (hf : Opposite c m fs) : Opposite c m (es ∪ fs) := by
  intro a b
  rw [Finset.mem_union, Finset.mem_union, he a b, hf a b]

theorem Opposite.sdiff (he : Opposite c m es) (hf : Opposite c m fs) : Opposite c m (es \ fs) := by
  intro a b
  rw [Finset.mem_sdiff, Finset.mem_sdiff, he a b, hf a b]

/-- An edge and the edge back meet the same vertices, so they go together. -/
theorem Opposite.avoiding (he : Opposite c m es) (id : VertexId) :
    Opposite c m (es.filter (fun e => e.origin ≠ id ∧ e.target ≠ id)) := by
  intro a b
  rw [Finset.mem_filter, Finset.mem_filter, he a b]
  exact and_congr_right (fun _ => and_comm)

end Opposite

section Calls

/-- All edges that the connection can write for its instances are opposite. -/
def Connection.InStep (d : Connection) (c m : String) : Prop :=
  ∀ owner target, Opposite c m (d.edges owner target).toFinset

/-- All connections of the instance that the call is made on are in step, if it views the graph. -/
def ModelCall.InStep (home : RegistryId → GraphId) (g : GraphId) (c m : String)
    (call : ModelCall) : Prop :=
  ∀ i, call.receiver? = some i → home i.registry = g →
    ∀ name d, i.model.connections.get? name = some d → d.InStep c m

theorem Connection.mem_edges {owner target : VertexId} {e : Edge} :
    e ∈ d.edges owner target ↔
      e = ⟨owner, target, d.name⟩ ∨ ∃ n, d.mirror = some n ∧ e = ⟨target, owner, n⟩ := by
  unfold Connection.edges
  cases d.mirror <;> simp [Edge.mirrored]

theorem Connection.InStep.edges_flatMap (hd : d.InStep c m) (owner : VertexId)
    (targets : List VertexId) : Opposite c m (targets.flatMap (d.edges owner)).toFinset := by
  intro a b
  simp only [List.mem_toFinset, List.mem_flatMap]
  refine exists_congr (fun t => and_congr_right (fun _ => ?_))
  simpa only [List.mem_toFinset] using hd owner t a b

theorem Opposite.linking (ho : Opposite c m o.edges) (hd : d.InStep c m) (i : Instance)
    (target : VertexId) : Opposite c m (o.performAll (i.linking d target)).edges := by
  unfold Instance.linking
  by_cases hlive : i.id ∈ o.live ∧ target ∈ o.live
  · have hends : ∀ e ∈ d.edges i.id target, e.origin ∈ o.live ∧ e.target ∈ o.live := by
      intro e he
      rcases Connection.mem_edges.mp he with rfl | ⟨n, _, rfl⟩
      · exact hlive
      · exact hlive.symm
    rw [o.performAll_setEdges hends]
    exact ho.union (hd i.id target)
  · -- The edge itself fails first, so the edge back is not even tried.
    unfold Connection.edges
    rw [List.map_cons, o.performAll_setEdge_failing (e := ⟨i.id, target, d.name⟩) hlive]
    exact ho

theorem flatMap_unlinking (i : Instance) (d : Connection) (targets : List VertexId) :
    targets.flatMap (i.unlinking d) = (targets.flatMap (d.edges i.id)).map .removeEdge :=
  List.map_flatMap.symm

theorem Opposite.unlinking (ho : Opposite c m o.edges) (hd : d.InStep c m) (i : Instance)
    (targets : List VertexId) :
    Opposite c m (o.performAll (targets.flatMap (i.unlinking d))).edges := by
  rw [flatMap_unlinking, ← List.append_nil (List.map _ _), o.performAll_removeEdges_append]
  exact ho.sdiff (hd.edges_flatMap i.id targets)

theorem Opposite.replacing (ho : Opposite c m o.edges) (hd : d.InStep c m) (w : Workspace)
    (i : Instance) (target : VertexId) :
    Opposite c m (o.performAll (i.replacing w d target)).edges := by
  unfold Instance.replacing
  rw [flatMap_unlinking, o.performAll_removeEdges_append]
  exact Opposite.linking (ho.sdiff (hd.edges_flatMap i.id _)) hd i target

end Calls

namespace Workspace

variable {w : Workspace} {home : RegistryId → GraphId} {g k : GraphId}

/-- The store of a graph holds the edges of the two types opposite to each other. -/
def InStep (home : RegistryId → GraphId) (g : GraphId) (c m : String) (w : Workspace) : Prop :=
  ∃ o, w.Outlined home g o ∧ Opposite c m o.edges

theorem inStep_of_empty {subscribers : List SinkId}
    (hg : w.graphs[g]? = some ⟨.empty, subscribers⟩) (c m : String) :
    w.InStep w.graphOf g c m := by
  have hempty : w.store g = .empty := by
    rw [store, hg]
    rfl
  refine ⟨.empty, ⟨(List.getElem?_eq_some_iff.mp hg).1, fun _ => rfl, ?_, ?_⟩, opposite_empty c m⟩
  · rw [hempty]
    exact Store.wellFormed_empty
  · rw [hempty]
    rfl

theorem InStep.performAll {ms : List Mutation} (h : w.InStep home g c m)
    (hms : k = g → ∀ o : Outline, Opposite c m o.edges → Opposite c m (o.performAll ms).edges) :
    (w.performAll k ms).1.InStep home g c m := by
  obtain ⟨o, hw, ho⟩ := h
  refine ⟨_, hw.performAll k ms, ?_⟩
  split
  · next hk => exact hms hk o ho
  · exact ho

theorem InStep.create (h : w.InStep home g c m) (r : RegistryId) (model : Model)
    (properties : Properties) : (w.create r model properties).1.InStep home g c m := by
  obtain ⟨o, hw, ho⟩ := h
  refine ⟨_, hw.create r model properties, ?_⟩
  split
  · exact ho
  · exact ho

theorem InStep.set (h : w.InStep home g c m) (i : Instance) (property : String) (value : Value) :
    (i.set w property value).1.InStep home g c m := by
  unfold Instance.set
  split
  · refine h.performAll (fun _ o ho => ?_)
    simp only [Outline.performAll]
    split
    · exact ho
    · next hn => exact Outline.eq_of_setProperty hn ▸ ho
  · exact h

theorem InStep.remove (h : w.InStep home g c m) (i : Instance) :
    (i.remove w).1.InStep home g c m := by
  unfold Instance.remove
  rw [← performAll_singleton]
  refine h.performAll (fun _ o ho => ?_)
  simp only [Outline.performAll, Outline.perform]
  by_cases hid : i.id ∈ o.live
  · rw [if_pos hid]
    exact ho.avoiding i.id
  · rw [if_neg hid]
    exact ho

section Connections

variable {i : Instance} (hd : i.graph w = g → d.InStep c m)
include hd

theorem InStep.clear (h : w.InStep home g c m) : (i.clear w d).1.InStep home g c m :=
  h.performAll (fun hg _ ho => ho.unlinking (hd hg) i _)

theorem InStep.setTarget (h : w.InStep home g c m) (target : Option Instance) :
    (i.setTarget w d target).1.InStep home g c m := by
  cases target with
  | none => exact h.clear hd
  | some j =>
    unfold Instance.setTarget
    dsimp only
    split
    · exact h
    · exact h.performAll (fun hg _ ho => ho.replacing (hd hg) w i j.id)

theorem InStep.add (h : w.InStep home g c m) (j : Instance) :
    (i.add w d j).1.InStep home g c m := by
  unfold Instance.add
  split
  · exact h
  · exact h.performAll (fun hg _ ho => ho.linking (hd hg) i j.id)

theorem InStep.removeMember (h : w.InStep home g c m) (j : Instance) :
    (i.removeMember w d j).1.InStep home g c m := by
  unfold Instance.removeMember
  split
  · exact h
  · refine h.performAll (fun hg _ ho => ?_)
    have hone := ho.unlinking (hd hg) i [j.id]
    rwa [List.flatMap_singleton] at hone

end Connections

theorem InStep.onConnection (h : w.InStep home g c m) {found : Except Error Connection}
    {call : Connection → Workspace × Except Error Unit}
    (hcall : ∀ d, found = .ok d → (call d).1.InStep home g c m) :
    (w.onConnection found call).1.InStep home g c m := by
  unfold Workspace.onConnection
  split
  · exact h
  · next d => exact hcall d rfl

theorem declared_of_single {i : Instance} {name : String} (hf : i.single name = .ok d) :
    i.model.connections.get? name = some d := by
  unfold Instance.single Model.single? at hf
  split at hf
  · next c hc =>
    cases hf
    exact (Option.filter_eq_some_iff.mp hc).1
  · cases hf

theorem declared_of_collection {i : Instance} {name : String} (hf : i.collection name = .ok d) :
    i.model.connections.get? name = some d := by
  unfold Instance.collection Model.collection? at hf
  split at hf
  · next c hc =>
    cases hf
    exact (Option.filter_eq_some_iff.mp hc).1
  · cases hf

theorem InStep.performCall (h : w.InStep home g c m) {call : ModelCall}
    (hcall : call.InStep home g c m) : (w.performCall call).1.InStep home g c m := by
  have hhome : ∀ i : Instance, i.graph w = home i.registry := by
    obtain ⟨o, hw, _⟩ := h
    exact fun i => hw.registries i.registry
  have hsingle : ∀ {i name d}, call.receiver? = some i → i.single name = .ok d →
      i.graph w = g → d.InStep c m := by
    intro i name d hi hf hg
    exact hcall i hi ((hhome i).symm.trans hg) name d (declared_of_single hf)
  have hcollection : ∀ {i name d}, call.receiver? = some i → i.collection name = .ok d →
      i.graph w = g → d.InStep c m := by
    intro i name d hi hf hg
    exact hcall i hi ((hhome i).symm.trans hg) name d (declared_of_collection hf)
  cases call with
  | create r model properties => exact h.create r model properties
  | set i property value => exact h.set i property value
  | remove i => exact h.remove i
  | setTarget i name target =>
    exact h.onConnection (fun d hf => h.setTarget (hsingle rfl hf) target)
  | clear i name => exact h.onConnection (fun d hf => h.clear (hsingle rfl hf))
  | add i name member =>
    exact h.onConnection (fun d hf => h.add (hcollection rfl hf) member)
  | removeMember i name member =>
    exact h.onConnection (fun d hf => h.removeMember (hcollection rfl hf) member)

theorem InStep.afterCalls (h : w.InStep home g c m) {calls : List ModelCall}
    (hcalls : ∀ call ∈ calls, call.InStep home g c m) :
    (w.afterCalls calls).InStep home g c m := by
  unfold Workspace.afterCalls
  induction calls generalizing w with
  | nil => exact h
  | cons call rest ih =>
    exact ih (h.performCall (hcalls call List.mem_cons_self))
      (fun later hm => hcalls later (List.mem_cons_of_mem _ hm))

/-- Mirrors come in pairs: all connections of one name have the same mirror, and where the mirror
is the name of connections itself, these lead back. -/
structure Paired (w : Workspace) (g : GraphId) : Prop where
  same : ∀ {c d : Connection} {m : String}, w.Declares g c → w.Declares g d →
    c.mirror = some m → d.name = c.name → d.mirror = some m
  back : ∀ {c d : Connection} {m : String}, w.Declares g c → w.Declares g d →
    c.mirror = some m → d.name = m → d.mirror = some c.name

/-- Mirrors come in pairs, and connections of different names have different mirrors. -/
structure Matched (w : Workspace) (g : GraphId) : Prop extends w.Paired g where
  distinct : ∀ {c d : Connection} {m : String}, w.Declares g c → w.Declares g d →
    c.mirror = some m → d.mirror = some m → d.name = c.name

/-- The connections of all registered models. -/
def connections (w : Workspace) : List Connection :=
  w.registries.flatMap (fun r => r.models.values.flatMap (fun m => m.connections.values))

theorem Declares.mem {c : Connection} (h : w.Declares g c) : c ∈ w.connections := by
  obtain ⟨r, type, m, name, _, hm, hc⟩ := h
  have hvalue : ∀ {β : Type} {map : OrderedMap String β} {k : String} {v : β},
      map.get? k = some v → v ∈ map.values := by
    intro β map k v hv
    exact map.mem_values_iff.mpr ⟨k, hv⟩
  cases hr : w.registries[r]? with
  | none =>
    simp only [model?, registry, hr, Option.getD_none] at hm
    cases hm
  | some registry =>
    simp only [model?, Workspace.registry, hr, Option.getD_some] at hm
    exact List.mem_flatMap.mpr ⟨registry, List.mem_of_getElem? hr,
      List.mem_flatMap.mpr ⟨m, hvalue hm, hvalue hc⟩⟩

theorem Paired.of_connections (h : ∀ c ∈ w.connections, ∀ d ∈ w.connections, c.mirror.isSome →
    (d.name = c.name → d.mirror = c.mirror) ∧
      (c.mirror = some d.name → d.mirror = some c.name)) : w.Paired g where
  same hc hd hm hname := hm ▸ (h _ hc.mem _ hd.mem (by simp [hm])).1 hname
  back hc hd hm hname := (h _ hc.mem _ hd.mem (by simp [hm])).2 (hname ▸ hm)

/-- Where mirrors are matched, a connection that writes one edge of a pair writes the other. -/
theorem Matched.inStep {c : Connection} (hw : w.Matched g) (hc : w.Declares g c)
    (hm : c.mirror = some m) (hd : w.Declares g d) : d.InStep c.name m := by
  intro owner target a b
  simp only [List.mem_toFinset, Connection.mem_edges, Edge.mk.injEq]
  constructor
  · rintro (⟨rfl, rfl, hname⟩ | ⟨n, hn, rfl, rfl, rfl⟩)
    · exact Or.inr ⟨m, hw.same hc hd hm hname.symm, rfl, rfl, rfl⟩
    · have hback := hw.back hd hc hn rfl
      rw [hm, Option.some.injEq] at hback
      exact Or.inl ⟨rfl, rfl, hback⟩
  · rintro (⟨rfl, rfl, hname⟩ | ⟨n, hn, rfl, rfl, rfl⟩)
    · exact Or.inr ⟨c.name, hw.back hc hd hm hname.symm, rfl, rfl, rfl⟩
    · exact Or.inl ⟨rfl, rfl, (hw.distinct hc hd hm hn).symm⟩

/-- Where mirrors are matched, calls that start on an empty store keep each connection and its
mirror in step, and one hop along the connection finds what the mirror's edges lead to. -/
theorem mirrors_stay_in_step {subscribers : List SinkId}
    (hg : w.graphs[g]? = some ⟨.empty, subscribers⟩) (hw : w.Matched g) {calls : List ModelCall}
    (hcalls : ∀ i ∈ calls.filterMap ModelCall.receiver?, w.Knows i) {c : Connection} {m : String}
    (hc : w.Declares g c) (hm : c.mirror = some m) :
    let w' := w.afterCalls calls
    (∀ a b, (w'.store g).hasEdge ⟨a, b, c.name⟩ = (w'.store g).hasEdge ⟨b, a, m⟩) ∧
      ∀ b, ∃ found : List Vertex,
        (found.map Vertex.id).Nodup
          ∧ (∀ v ∈ found, (w'.store g).vertex? v.id = some v)
          ∧ (∀ a, a ∈ found.map Vertex.id ↔
            ∃ e ∈ (w'.store g).outEdges b, e.type = m ∧ e.target = a)
          ∧ (Cursor.ofTraversal w' (.record g) (Traversal.start.via c.name) (.ofList [b])).Delivers
            w' (found.map .record)
          ∧ ∀ r, w'.graphOf r = g →
            (Cursor.ofTraversal w' (.projected r) (Traversal.start.via c.name)
              (.ofList [b])).Delivers w' (found.filterMap (fun v =>
                (w'.model? r v.type).map (fun model => .viewed ⟨r, v.id, model⟩))) := by
  intro w'
  obtain ⟨o, hout, hopp⟩ : w'.InStep w.graphOf g c.name m :=
    (inStep_of_empty hg c.name m).afterCalls (fun call hcall i hi hhome name d hd =>
      hw.inStep hc hm ⟨i.registry, i.model.type, i.model, name, hhome,
        hcalls i (List.mem_filterMap.mpr ⟨call, hcall, hi⟩), hd⟩)
  have hs := hout.wellFormed
  have hedges : ∀ a b,
      (w'.store g).hasEdge ⟨a, b, c.name⟩ = (w'.store g).hasEdge ⟨b, a, m⟩ := by
    intro a b
    rw [Bool.eq_iff_iff, ← hs.mem_outline_edges, ← hs.mem_outline_edges, hout.outline]
    exact hopp a b
  refine ⟨hedges, fun b => ?_⟩
  obtain ⟨found, hnodup, hrecords, horigins, hdelivers⟩ := hop_finds_origins hs c.name b
  refine ⟨found, hnodup, hrecords, fun a => ?_, hdelivers⟩
  rw [horigins, hedges a b]
  constructor
  · intro he
    exact ⟨⟨b, a, m⟩, Store.mem_outEdges.mpr ⟨he, rfl⟩, rfl, rfl⟩
  · rintro ⟨e, he, rfl, rfl⟩
    obtain ⟨hedge, rfl⟩ := Store.mem_outEdges.mp he
    exact hedge

/-- The mayor of a place, who was its own friend too, is removed. A late call on it fails, and
the place takes another for its mayor. -/
theorem place_finds_its_mayor :
    let person := ((Model.ofType "Person").connection "mayorOf"
      ⟨"", false, false, some "mayor"⟩).connection "friends" ⟨"", true, true, none⟩
    let place := (Model.ofType "Place").connection "mayor" ⟨"", false, false, some "mayorOf"⟩
    let w := ((Workspace.mk [⟨.empty, []⟩] [] [⟨0, .empty, .sequential "v", 0⟩]
      countedUuid).register 0 person).register 0 place
    let a : Instance := ⟨0, "v1", person⟩
    let b : Instance := ⟨0, "v2", person⟩
    let p : Instance := ⟨0, "v3", place⟩
    let calls : List ModelCall := [.create 0 person [], .create 0 person [], .create 0 place [],
      .add a "friends" a, .add a "friends" b, .setTarget a "mayorOf" (some p), .remove a,
      .setTarget a "mayorOf" (some p), .setTarget p "mayor" (some b)]
    w.Matched 0 ∧ (∀ i ∈ calls.filterMap ModelCall.receiver?, w.Knows i) ∧
      ((w.afterCalls calls).store 0).hasEdge ⟨"v2", "v3", "mayorOf"⟩ = true ∧
      (∀ x y, ((w.afterCalls calls).store 0).hasEdge ⟨x, y, "mayorOf"⟩ =
        ((w.afterCalls calls).store 0).hasEdge ⟨y, x, "mayor"⟩) := by
  intro person place w a b p calls
  have hw : w.Matched 0 := by
    refine ⟨.of_connections (by decide), fun {c d m} hc hd hm hn => ?_⟩
    have hdistinct : ∀ c ∈ w.connections, ∀ d ∈ w.connections, c.mirror.isSome →
        d.mirror = c.mirror → d.name = c.name := by decide
    exact hdistinct c hc.mem d hd.mem (by simp [hm]) (hn.trans hm.symm)
  have hcalls : ∀ i ∈ calls.filterMap ModelCall.receiver?, w.Knows i := by
    have hreceivers : calls.filterMap ModelCall.receiver? = [a, a, a, a, a, p] := rfl
    have hperson : w.Knows a := rfl
    have hplace : w.Knows p := rfl
    rw [hreceivers]
    simp [hperson, hplace]
  exact ⟨hw, hcalls, by decide, (mirrors_stay_in_step rfl hw hcalls
    (c := ⟨"mayorOf", false, false, some "mayor"⟩)
    ⟨0, "Person", person, "mayorOf", rfl, rfl, rfl⟩ rfl).1⟩

/-- Two connections share their edge back, which tells of the one though only the other
connects. -/
theorem shared_mirror_falls_out_of_step :
    let likes : Connection := ⟨"likes", true, false, some "likedBy"⟩
    let loves : Connection := ⟨"loves", true, false, some "likedBy"⟩
    let person := ((Model.ofType "Person").connection "likes" likes).connection "loves" loves
    let w := (Workspace.mk [⟨.empty, []⟩] [] [⟨0, .empty, .sequential "v", 0⟩]
      countedUuid).register 0 person
    let a : Instance := ⟨0, "v1", person⟩
    let b : Instance := ⟨0, "v2", person⟩
    let calls : List ModelCall := [.create 0 person [], .create 0 person [], .add a "loves" b]
    w.graphs[0]? = some ⟨.empty, []⟩ ∧ w.Paired 0 ∧ w.Declares 0 likes
      ∧ likes.mirror = some "likedBy"
      ∧ (∀ i ∈ calls.filterMap ModelCall.receiver?, w.Knows i)
      ∧ ((w.afterCalls calls).store 0).hasEdge ⟨"v2", "v1", "likedBy"⟩ = true
      ∧ ((w.afterCalls calls).store 0).hasEdge ⟨"v1", "v2", "likes"⟩ = false := by
  intro likes loves person w a b calls
  have hcalls : ∀ i ∈ calls.filterMap ModelCall.receiver?, w.Knows i := by
    have hreceivers : calls.filterMap ModelCall.receiver? = [a] := rfl
    have hknown : w.Knows a := rfl
    rw [hreceivers]
    simp [hknown]
  exact ⟨rfl, .of_connections (by decide), ⟨0, "Person", person, "likes", rfl, rfl, rfl⟩, rfl,
    hcalls, by decide, by decide⟩

end Workspace

end PropertyGraph
