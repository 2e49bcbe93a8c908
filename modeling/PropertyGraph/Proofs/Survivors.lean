import PropertyGraph.Proofs.Enumeration
import PropertyGraph.Proofs.OpenCursor
import PropertyGraph.Proofs.Outline

namespace PropertyGraph

/-- Two items that both lists have stand in the same order in both. -/
def KeepsOrder {α : Type} (before after : List α) : Prop :=
  ∀ x y, x ∈ before → y ∈ before → x ∈ after → y ∈ after →
    ([x, y].Sublist before ↔ [x, y].Sublist after)

section Lists

variable {α β : Type} {xs ys before after : List α} {x y : α}

/-- Items of a part stand there as they do in the whole. -/
theorem pair_sublist_iff (hn : ys.Nodup) (hs : xs.Sublist ys) (hx : x ∈ xs) (hy : y ∈ xs) :
    [x, y].Sublist xs ↔ [x, y].Sublist ys := by
  classical
  refine ⟨fun h => h.trans hs, fun h => ?_⟩
  have hpair : [x, y].filter (fun a => a ∈ xs) = [x, y] := by simp [hx, hy]
  rw [sublist_eq_filter hn hs, ← hpair]
  exact h.filter _

/-- Parts of two lists of which one is part of the other have a common order. -/
theorem keepsOrder_of_sublist (hb : before.Sublist xs) (ha : after.Sublist ys) (hxs : xs.Nodup)
    (hys : ys.Nodup) (h : xs.Sublist ys ∨ ys.Sublist xs) : KeepsOrder before after := by
  have hwhole : ∃ all : List α, all.Nodup ∧ before.Sublist all ∧ after.Sublist all := by
    rcases h with h | h
    · exact ⟨ys, hys, hb.trans h, ha⟩
    · exact ⟨xs, hxs, hb, ha.trans h⟩
  obtain ⟨all, hn, hb, ha⟩ := hwhole
  intro x y hxb hyb hxa hya
  rw [pair_sublist_iff hn hb hxb hyb, pair_sublist_iff hn ha hxa hya]

theorem sublist_or_map (f : α → β) (h : xs.Sublist ys ∨ ys.Sublist xs) :
    (xs.map f).Sublist (ys.map f) ∨ (ys.map f).Sublist (xs.map f) :=
  h.imp (List.Sublist.map f) (List.Sublist.map f)

end Lists

/-- If a key gets a value that lists more, the entries list what they did, and more: in its place,
or at the end if the key is new. -/
theorem Entries.flatMap_insert_sublist {κ β γ : Type} [DecidableEq κ] {k : κ} {v : β}
    {entries : List (κ × β)} {f : κ × β → List γ}
    (h : ∀ old, get? k entries = some old → (f (k, old)).Sublist (f (k, v))) :
    (entries.flatMap f).Sublist ((insert k v entries).flatMap f) := by
  induction entries with
  | nil => exact List.nil_sublist _
  | cons e rest ih =>
    obtain ⟨a, b⟩ := e
    by_cases hk : a = k
    · subst hk
      rw [insert, if_pos rfl, List.flatMap_cons, List.flatMap_cons]
      exact (h b (by rw [get?, if_pos rfl])).append_right _
    · rw [insert, if_neg hk, List.flatMap_cons, List.flatMap_cons]
      refine (ih fun old hold => h old ?_).append_left _
      rw [get?, if_neg hk, hold]

theorem OrderedMap.keys_sublist_insert {κ β : Type} [DecidableEq κ] (m : OrderedMap κ β) (k : κ)
    (v : β) : m.keys.Sublist (m.insert k v).keys := by
  rw [OrderedMap.keys_insert]
  split
  · exact List.Sublist.refl _
  · exact List.sublist_append_left _ _

namespace Adjacency

variable {a b : Adjacency}

/-- What a call can make of one side of a vertex. -/
inductive Edited (a : Adjacency) : Adjacency → Prop where
  | kept : Edited a a
  | cleared : Edited a .empty
  | restricted (keep : VertexId → String → Bool) : Edited a (a.restrict keep)
  | linked (n : VertexId) (t : String) : Edited a (a.link n t)

/-- A new edge may come in the middle, next to the other edges to its neighbour. -/
theorem links_sublist_link (a : Adjacency) (n : VertexId) (t : String) :
    a.links.Sublist (a.link n t).links := by
  refine Entries.flatMap_insert_sublist (fun old hold => ?_)
  have htypes : a.types n = old := by
    unfold types
    rw [OrderedMap.get?, hold, Option.getD_some]
  rw [htypes]
  exact (List.sublist_append_left old [t]).map _

theorem Edited.links (h : a.Edited b) : a.links.Sublist b.links ∨ b.links.Sublist a.links := by
  cases h with
  | kept => exact .inl (List.Sublist.refl _)
  | cleared => exact .inr (List.nil_sublist _)
  | restricted keep =>
    rw [links_restrict]
    exact .inr List.filter_sublist
  | linked n t => exact .inl (a.links_sublist_link n t)

theorem Edited.types (h : a.Edited b) (n : VertexId) :
    (a.types n).Sublist (b.types n) ∨ (b.types n).Sublist (a.types n) := by
  cases h with
  | kept => exact .inl (List.Sublist.refl _)
  | cleared => exact .inr (List.nil_sublist _)
  | restricted keep =>
    rw [types_restrict]
    exact .inr List.filter_sublist
  | linked m t =>
    rw [types_link]
    split
    · exact .inl (List.sublist_append_left _ _)
    · exact .inl (List.Sublist.refl _)

end Adjacency

namespace Store

variable {s : Store} {m : Mutation} {o : Outcome}

/-- One side of the adjacency after a call: each vertex has its entry edited. -/
def SideEdited (side side' : OrderedMap VertexId Adjacency) : Prop :=
  ∀ id, ((side.get? id).getD .empty).Edited ((side'.get? id).getD .empty)

section Sides

variable {side : OrderedMap VertexId Adjacency}

theorem sideEdited_refl (side : OrderedMap VertexId Adjacency) : SideEdited side side :=
  fun _ => .kept

theorem sideEdited_opened (hk : side.keys = s.vertices.keys) (id : VertexId) :
    SideEdited side (s.opened id side) := by
  intro x
  rw [getD_opened (fun _ hm => hk ▸ hm)]
  exact .kept

theorem sideEdited_restrictSide (keep : VertexId → VertexId → String → Bool)
    (side : OrderedMap VertexId Adjacency) : SideEdited side (restrictSide keep side) := by
  intro x
  rw [getD_restrictSide]
  exact .restricted _

theorem sideEdited_erase (keep : VertexId → VertexId → String → Bool)
    (side : OrderedMap VertexId Adjacency) (id : VertexId) :
    SideEdited side ((restrictSide keep side).erase id) := by
  intro x
  rw [getD_erase]
  split
  · exact .cleared
  · exact sideEdited_restrictSide keep side x

theorem sideEdited_link (side : OrderedMap VertexId Adjacency) (id n : VertexId) (t : String) :
    SideEdited side (side.insert id (((side.get? id).getD .empty).link n t)) := by
  intro x
  rw [getD_insert]
  split
  · next hx =>
    subst hx
    exact .linked n t
  · exact .kept

end Sides

theorem Effect.sides_edited (he : Effect s m o) (h : s.WellFormed) :
    SideEdited s.outgoing o.store.outgoing ∧ SideEdited s.incoming o.store.incoming := by
  cases he with
  | created v _ _ =>
    exact ⟨sideEdited_opened h.outgoing_keys v.id, sideEdited_opened h.incoming_keys v.id⟩
  | updated _ v _ _ _ =>
    exact ⟨sideEdited_opened h.outgoing_keys v.id, sideEdited_opened h.incoming_keys v.id⟩
  | removed v _ => exact ⟨sideEdited_erase _ _ v.id, sideEdited_erase _ _ v.id⟩
  | made e _ _ _ => exact ⟨sideEdited_link _ e.origin _ _, sideEdited_link _ e.target _ _⟩
  | deleted e _ => exact ⟨sideEdited_restrictSide _ _, sideEdited_restrictSide _ _⟩
  | unchanged => exact ⟨sideEdited_refl _, sideEdited_refl _⟩

theorem idsOf_sublist_stored (s : Store) (v : Vertex) (type : Option String) :
    (s.idsOf type).Sublist ((s.stored v).idsOf type) := by
  cases type with
  | none => exact s.vertices.keys_sublist_insert v.id v
  | some type =>
    rw [idsOf_stored]
    split
    · exact List.sublist_append_left _ _
    · exact List.Sublist.refl _

theorem idsOf_without_sublist (s : Store) (id : VertexId) (u : String) (type : Option String) :
    ((s.without id u).idsOf type).Sublist (s.idsOf type) := by
  cases type with
  | none =>
    rw [idsOf, without, OrderedMap.keys_erase]
    exact List.filter_sublist
  | some type =>
    rw [idsOf_without]
    split
    · exact List.filter_sublist
    · exact List.Sublist.refl _

theorem Effect.idsOf_sublist (he : Effect s m o) (type : Option String) :
    (s.idsOf type).Sublist (o.store.idsOf type) ∨
      (o.store.idsOf type).Sublist (s.idsOf type) := by
  cases he with
  | created v _ _ => exact .inl (s.idsOf_sublist_stored v type)
  | updated _ v _ _ _ => exact .inl (s.idsOf_sublist_stored v type)
  | removed v _ => exact .inr (s.idsOf_without_sublist v.id v.type type)
  | made e _ _ _ => exact .inl (List.Sublist.refl _)
  | deleted e _ => exact .inl (List.Sublist.refl _)
  | unchanged => exact .inl (List.Sublist.refl _)

/-- A bucket stays, also when it is empty, so a type that comes back has its place. -/
theorem Effect.buckets_sublist (he : Effect s m o) :
    s.typeIndex.keys.Sublist o.store.typeIndex.keys := by
  cases he with
  | created v _ _ => exact s.typeIndex.keys_sublist_insert _ _
  | updated _ v _ _ _ => exact s.typeIndex.keys_sublist_insert _ _
  | removed v _ =>
    rw [without, OrderedMap.keys_modify]
  | made e _ _ _ => exact List.Sublist.refl _
  | deleted e _ => exact List.Sublist.refl _
  | unchanged => exact List.Sublist.refl _

theorem nodup_idsOf (s : Store) (type : Option String) : (s.idsOf type).Nodup := by
  cases type with
  | none => exact s.vertices.nodup
  | some type => exact OrderedSet.nodup _

/-- The ids that are looked up lead to records with these ids. -/
theorem WellFormed.ids_sublist (h : s.WellFormed) (ids : List VertexId) :
    ((ids.filterMap s.vertex?).map Vertex.id).Sublist ids := by
  induction ids with
  | nil => exact List.Sublist.slnil
  | cons id ids ih =>
    cases hv : s.vertex? id with
    | none =>
      rw [List.filterMap_cons_none hv]
      exact ih.cons id
    | some v =>
      rw [List.filterMap_cons_some hv, List.map_cons, h.own_id id v hv]
      exact ih.cons_cons id

end Store

/-- What an item is known by: an edge as it is, a vertex by its id. -/
inductive Mark where
  | edge (e : Edge)
  | vertex (id : VertexId)

def Item.mark : Item → Mark
  | edge e => .edge e
  | record v => .vertex v.id
  | viewed i => .vertex i.id

/-- An enumeration of a graph, which can be opened at any time. -/
inductive Enumeration where
  | outEdges (id : VertexId)
  | inEdges (id : VertexId)
  | interEdges (origin target : VertexId)
  | vertices (type : Option String)

namespace Enumeration

def cursor (w : Workspace) (g : GraphId) : Enumeration → Cursor
  | outEdges id => .ofEdges ((w.store g).outEdges id)
  | inEdges id => .ofEdges ((w.store g).inEdges id)
  | interEdges origin target => .ofEdges ((w.store g).interEdges origin target)
  | vertices type => .ofVertices w g type

/-- The marks of what the enumeration hands out. -/
def marks (s : Store) : Enumeration → List Mark
  | outEdges id => (s.outEdges id).map .edge
  | inEdges id => (s.inEdges id).map .edge
  | interEdges origin target => (s.interEdges origin target).map .edge
  | vertices type => ((s.idsOf type).filterMap s.vertex?).map (fun v => .vertex v.id)

theorem delivers_marks (w : Workspace) (g : GraphId) (enumeration : Enumeration) :
    ∃ items, (enumeration.cursor w g).Delivers w items ∧
      items.map Item.mark = enumeration.marks (w.store g) := by
  have hedges : ∀ es : List Edge, ∃ items, (Cursor.ofEdges es).Delivers w items ∧
      items.map Item.mark = es.map .edge := fun es =>
    ⟨es.map .edge, Cursor.delivers_edges w (Seq.left_ofList es), by rw [List.map_map]; rfl⟩
  cases enumeration with
  | outEdges id => exact hedges _
  | inEdges id => exact hedges _
  | interEdges origin target => exact hedges _
  | vertices type => exact ⟨_, w.delivers_vertices g type, by rw [List.map_map]; rfl⟩

variable {s : Store} {m : Mutation} {o : Outcome}

theorem keepsOrder_edges {before after : List Edge} (hb : before.Nodup) (ha : after.Nodup)
    (h : before.Sublist after ∨ after.Sublist before) :
    KeepsOrder (before.map Mark.edge) (after.map Mark.edge) := by
  have hinj : Function.Injective Mark.edge := fun _ _ h => Mark.edge.inj h
  exact keepsOrder_of_sublist (List.Sublist.refl _) (List.Sublist.refl _) (hb.map hinj)
    (ha.map hinj) (sublist_or_map _ h)

/-- A mutation moves nothing in any enumeration. -/
theorem keepsOrder_marks (enumeration : Enumeration) (he : Store.Effect s m o)
    (hs : s.WellFormed) :
    KeepsOrder (enumeration.marks s) (enumeration.marks o.store) := by
  have ho : o.store.WellFormed := he.wellFormed hs
  cases enumeration with
  | outEdges id =>
    refine keepsOrder_edges (hs.mirrored.nodup_outEdges id) (ho.mirrored.nodup_outEdges id) ?_
    rw [Store.outEdges_eq, Store.outEdges_eq]
    exact sublist_or_map _ ((he.sides_edited hs).1 id).links
  | inEdges id =>
    refine keepsOrder_edges (hs.mirrored.nodup_inEdges id) (ho.mirrored.nodup_inEdges id) ?_
    rw [Store.inEdges_eq, Store.inEdges_eq]
    exact sublist_or_map _ ((he.sides_edited hs).2 id).links
  | interEdges origin target =>
    refine keepsOrder_edges (hs.mirrored.nodup_interEdges origin target)
      (ho.mirrored.nodup_interEdges origin target) ?_
    rw [Store.interEdges_eq, Store.interEdges_eq]
    exact sublist_or_map _ (((he.sides_edited hs).1 origin).types target)
  | vertices type =>
    have hinj : Function.Injective Mark.vertex := fun _ _ h => Mark.vertex.inj h
    have hpart : ∀ t : Store, t.WellFormed →
        (marks t (vertices type)).Sublist ((t.idsOf type).map Mark.vertex) := by
      intro t ht
      have hmap := (ht.ids_sublist (t.idsOf type)).map Mark.vertex
      rwa [List.map_map] at hmap
    exact keepsOrder_of_sublist (hpart s hs) (hpart o.store ho) ((s.nodup_idsOf type).map hinj)
      ((o.store.nodup_idsOf type).map hinj) (sublist_or_map _ (he.idsOf_sublist type))

end Enumeration

theorem Store.Effect.keepsOrder_types {s : Store} {m : Mutation} {o : Outcome}
    (he : Effect s m o) : KeepsOrder s.types o.store.types :=
  keepsOrder_of_sublist (List.filter_sublist.map Prod.fst) (List.filter_sublist.map Prod.fst)
    s.typeIndex.nodup o.store.typeIndex.nodup (.inl he.buckets_sublist)

namespace Workspace

/-- Items that an enumeration hands out before a call and again behind it come in the same order
both times, whichever call it is and whether or not it fails. So do the types that there are. -/
theorem survivors_keep_their_order {w w' : Workspace} {g : GraphId} {calls : List Call} {c : Call}
    (hs : w.store g = Store.empty.run calls) (hc : w'.store g = (w.store g).after c) :
    (∀ enumeration : Enumeration, ∃ before after,
      (enumeration.cursor w g).Delivers w before ∧ (enumeration.cursor w' g).Delivers w' after ∧
        KeepsOrder (before.map Item.mark) (after.map Item.mark)) ∧
    KeepsOrder (w.store g).types (w'.store g).types := by
  have hw : (w.store g).WellFormed := hs ▸ Store.wellFormed_empty.run calls
  have hkept : (∀ enumeration : Enumeration,
      KeepsOrder (enumeration.marks (w.store g)) (enumeration.marks (w'.store g))) ∧
      KeepsOrder (w.store g).types (w'.store g).types := by
    rw [hc]
    rcases (w.store g).after_cases c with h | ⟨m, o, _, ho, h⟩
    · rw [h]
      exact ⟨fun _ _ _ _ _ _ _ => Iff.rfl, fun _ _ _ _ _ _ => Iff.rfl⟩
    · rw [h]
      have he := hw.perform_effect ho
      exact ⟨fun enumeration => enumeration.keepsOrder_marks he hw, he.keepsOrder_types⟩
  refine ⟨fun enumeration => ?_, hkept.2⟩
  obtain ⟨before, hbefore, hb⟩ := enumeration.delivers_marks w g
  obtain ⟨after, hafter, ha⟩ := enumeration.delivers_marks w' g
  refine ⟨before, after, hbefore, hafter, ?_⟩
  rw [hb, ha]
  exact hkept.1 enumeration

/-- An edge to a neighbour that has others comes between the edges that were there. -/
theorem second_edge_comes_between :
    let calls : List Call := [.perform (.setVertex "a" "Person" []),
      .perform (.setVertex "b" "Person" []), .perform (.setVertex "c" "Robot" []),
      .perform (.setEdge ⟨"a", "b", "knows"⟩), .perform (.setEdge ⟨"a", "c", "builds"⟩)]
    let c : Call := .perform (.setEdge ⟨"a", "b", "likes"⟩)
    let w := Workspace.mk [⟨Store.empty.run calls, []⟩] [] [] countedUuid
    let w' := Workspace.mk [⟨(Store.empty.run calls).after c, []⟩] [] [] countedUuid
    let leaving := Enumeration.outEdges "a"
    (w.store 0).outEdges "a" = [⟨"a", "b", "knows"⟩, ⟨"a", "c", "builds"⟩] ∧
      (w'.store 0).outEdges "a" =
        [⟨"a", "b", "knows"⟩, ⟨"a", "b", "likes"⟩, ⟨"a", "c", "builds"⟩] ∧
      (∃ before after, (leaving.cursor w 0).Delivers w before ∧
        (leaving.cursor w' 0).Delivers w' after ∧
          KeepsOrder (before.map Item.mark) (after.map Item.mark)) ∧
      KeepsOrder (w.store 0).types (w'.store 0).types := by
  intro calls c w w' leaving
  have hs : w.store 0 = Store.empty.run calls := rfl
  have hc : w'.store 0 = (w.store 0).after c := rfl
  obtain ⟨henumerations, htypes⟩ := survivors_keep_their_order hs hc
  exact ⟨by decide, by decide, henumerations leaving, htypes⟩

end Workspace

end PropertyGraph
