import PropertyGraph.Proofs.Effect
import PropertyGraph.Proofs.Sequence
import PropertyGraph.Workspace.Cursor

namespace PropertyGraph

theorem Hop.passes_iff {h : Hop} {v : Vertex} :
    h.passes v = true ↔ ∀ keep ∈ h.filter, keep v = true := by
  rw [passes, Option.all_eq_true]
  rfl

namespace Traversal

variable {ε : Type} {look : ε → Store} {e : ε} {s : Store}

section Lazy

theorem elems_foldl_insert (set : OrderedSet VertexId) (kept ids : List VertexId)
    (hk : ∀ id, id ∈ kept ↔ id ∈ set.elems) :
    (ids.foldl OrderedSet.insert set).elems =
      set.elems ++ Seq.fresh (fun a b => decide (a = b)) kept ids := by
  induction ids generalizing set kept with
  | nil => simp [Seq.fresh]
  | cons id ids ih =>
    rw [List.foldl_cons, Seq.fresh]
    by_cases hm : id ∈ set.elems
    · have hsame : set.insert id = set := dif_pos hm
      have hany : kept.any (fun b => decide (id = b)) = true := by simpa using (hk id).mpr hm
      rw [if_pos hany, hsame]
      exact ih set kept hk
    · have hnew : (set.insert id).elems = set.elems ++ [id] := by
        rw [OrderedSet.insert, dif_neg hm]
      have hany : ¬ kept.any (fun b => decide (id = b)) = true := by
        simpa using fun h => hm ((hk id).mp h)
      rw [if_neg hany, ih (set.insert id) (id :: kept) (fun x => by
        rw [OrderedSet.mem_insert, List.mem_cons, hk]), hnew, List.append_assoc,
        List.singleton_append]

theorem fresh_eq_firstOccurrences (ids : List VertexId) :
    Seq.fresh (fun a b => decide (a = b)) [] ids = firstOccurrences ids :=
  (elems_foldl_insert .empty [] ids (fun _ => Iff.rfl)).symm

theorem hopSeq_yields (look : ε → Store) (h : Hop) (e : ε) (id : VertexId) :
    Seq.Yields e (hopSeq look h e id) (h.reach (look e) id) := by
  have hall := (Seq.yields_ofList e (h.origins (look e) id)).filterMap
    (fun e origin => h.arrival? (look e) origin)
  unfold hopSeq Hop.reach Hop.cut
  dsimp only
  cases h.limit with
  | none => exact hall
  | some n => exact hall.limit n

theorem stage_yields (h : Hop) {frontier : Seq ε VertexId} {ids : List VertexId}
    (hf : frontier.Yields e ids) :
    Seq.Yields e (stage look h frontier)
      (firstOccurrences (ids.flatMap (h.reach (look e)))) := by
  rw [← fresh_eq_firstOccurrences]
  exact (hf.flatten (fun id _ => hopSeq_yields look h e id)).distinct _ []

/-- Driving a traversal gives what evaluating each stage at once gives. -/
theorem startingWith_yields (look : ε → Store) (t : Traversal) {start : Seq ε VertexId}
    {seeds : List VertexId} (hs : start.Yields e seeds) :
    Seq.Yields e (t.startingWith look start) (t.reach (look e) seeds) := by
  unfold startingWith reach
  induction t.hops with
  | nil => exact hs
  | cons h hops ih => exact stage_yields h ih

end Lazy

section Eager

/-- A path along the hops: from the vertex to the seed, where every vertex but the seed passes the
filter of the hop that leaves it. -/
inductive Leads (s : Store) : List Hop → VertexId → VertexId → Prop
  | arrived (seed : VertexId) : Leads s [] seed seed
  | hop {h : Hop} {hops : List Hop} {v : Vertex} {id next seed : VertexId}
    (found : s.vertex? id = some v) (passes : ∀ keep ∈ h.filter, keep v = true)
    (edge : s.hasEdge ⟨id, next, h.name⟩ = true) (rest : Leads s hops next seed) :
    Leads s (h :: hops) id seed

theorem mem_foldl_insert {id : VertexId} {ids : List VertexId} {set : OrderedSet VertexId} :
    id ∈ (ids.foldl OrderedSet.insert set).elems ↔ id ∈ set.elems ∨ id ∈ ids := by
  induction ids generalizing set with
  | nil => simp
  | cons x ids ih =>
    rw [List.foldl_cons, ih, OrderedSet.mem_insert, List.mem_cons]
    tauto

theorem mem_firstOccurrences {id : VertexId} {ids : List VertexId} :
    id ∈ firstOccurrences ids ↔ id ∈ ids := by
  rw [firstOccurrences, OrderedSet.ofList, mem_foldl_insert]
  simp [OrderedSet.empty]

theorem nodup_firstOccurrences (ids : List VertexId) : (firstOccurrences ids).Nodup :=
  (OrderedSet.ofList ids).nodup

/-- A hop without limit leads back along all its edges from vertices that pass its filter. -/
theorem mem_hop_reach (hs : s.WellFormed) {h : Hop} (hl : h.limit = none) {id next : VertexId} :
    id ∈ h.reach s next ↔
      ∃ v, s.vertex? id = some v ∧ (∀ keep ∈ h.filter, keep v = true) ∧
        s.hasEdge ⟨id, next, h.name⟩ = true := by
  have hcut : h.reach s next = (h.origins s next).filterMap (h.arrival? s) := by
    rw [Hop.reach, Hop.cut, hl]
  have horigin : ∀ origin, origin ∈ h.origins s next ↔
      s.hasEdge ⟨origin, next, h.name⟩ = true := by
    intro origin
    simp only [Hop.origins, List.mem_map, List.mem_filter, hs.mirrored.mem_inEdges,
      decide_eq_true_eq]
    constructor
    · rintro ⟨⟨a, b, t⟩, ⟨⟨he, rfl⟩, rfl⟩, rfl⟩
      exact he
    · intro he
      exact ⟨⟨origin, next, h.name⟩, ⟨⟨he, rfl⟩, rfl⟩, rfl⟩
  have harrival : ∀ origin, h.arrival? s origin = some id ↔
      ∃ v, s.vertex? origin = some v ∧ (∀ keep ∈ h.filter, keep v = true) ∧ origin = id := by
    intro origin
    simp only [Hop.arrival?, Option.bind_eq_some_iff, Option.ite_none_right_eq_some,
      Hop.passes_iff, Option.some.injEq]
    constructor
    · rintro ⟨v, hv, hp, rfl⟩
      exact ⟨v, hv, hp, (hs.own_id origin v hv).symm⟩
    · rintro ⟨v, hv, hp, rfl⟩
      exact ⟨v, hv, hp, hs.own_id origin v hv⟩
  rw [hcut, List.mem_filterMap]
  constructor
  · rintro ⟨origin, ho, ha⟩
    obtain ⟨v, hv, hp, rfl⟩ := (harrival origin).mp ha
    exact ⟨v, hv, hp, (horigin origin).mp ho⟩
  · rintro ⟨v, hv, hp, he⟩
    exact ⟨id, (horigin id).mpr he, (harrival id).mpr ⟨v, hv, hp, rfl⟩⟩

/-- A traversal without limits reaches the vertices that a path along its hops leads from. -/
theorem mem_reach (hs : s.WellFormed) {t : Traversal} (hl : ∀ h ∈ t.hops, h.limit = none)
    {seeds : List VertexId} {id : VertexId} :
    id ∈ t.reach s seeds ↔ ∃ seed ∈ seeds, Leads s t.hops id seed := by
  obtain ⟨hops⟩ := t
  unfold reach
  dsimp only at hl ⊢
  induction hops generalizing id with
  | nil =>
    constructor
    · intro hm
      exact ⟨id, hm, .arrived id⟩
    · rintro ⟨seed, hm, hp⟩
      cases hp
      exact hm
  | cons h hops ih =>
    have ih := fun id => @ih id (fun h hm => hl h (List.mem_cons_of_mem _ hm))
    rw [List.foldr_cons, mem_firstOccurrences, List.mem_flatMap]
    constructor
    · rintro ⟨next, hn, hm⟩
      obtain ⟨v, hv, hp, he⟩ := (mem_hop_reach hs (hl h List.mem_cons_self)).mp hm
      obtain ⟨seed, hseed, hpath⟩ := (ih next).mp hn
      exact ⟨seed, hseed, .hop hv hp he hpath⟩
    · rintro ⟨seed, hseed, hpath⟩
      cases hpath with
      | hop hv hp he hrest =>
        exact ⟨_, (ih _).mpr ⟨seed, hseed, hrest⟩,
          (mem_hop_reach hs (hl h List.mem_cons_self)).mpr ⟨_, hv, hp, he⟩⟩

theorem nodup_reach (s : Store) {t : Traversal} (ht : t.hops ≠ []) (seeds : List VertexId) :
    (t.reach s seeds).Nodup := by
  obtain ⟨h, hops, hh⟩ := List.exists_cons_of_ne_nil ht
  rw [reach, hh, List.foldr_cons]
  exact nodup_firstOccurrences _

/-- One hop reaches the origins of the edges that arrive at the seed. -/
theorem mem_reach_via (hs : s.WellFormed) {name : String} {seed id : VertexId} :
    id ∈ (start.via name).reach s [seed] ↔ s.hasEdge ⟨id, seed, name⟩ = true := by
  have hreach : id ∈ (start.via name).reach s [seed] ↔
      id ∈ (Hop.mk name none none).reach s seed := by
    simp [reach, start, via, mem_firstOccurrences]
  rw [hreach, mem_hop_reach hs rfl]
  constructor
  · rintro ⟨_, _, _, he⟩
    exact he
  · intro he
    obtain ⟨v, hv⟩ := s.vertices.mem_keys_iff.mp (hs.ends he).1
    exact ⟨v, hv, nofun, he⟩

/-- What is reached over at least one hop is a vertex, whose record has the id that was reached. -/
theorem ids_reach (hs : s.WellFormed) {t : Traversal} (ht : t.hops ≠ [])
    (hl : ∀ h ∈ t.hops, h.limit = none) (seeds : List VertexId) :
    ((t.reach s seeds).filterMap s.vertex?).map Vertex.id = t.reach s seeds := by
  have hshown : ∀ id ∈ t.reach s seeds, (s.vertex? id).map Vertex.id = some id := by
    intro id hm
    obtain ⟨seed, _, hpath⟩ := (mem_reach hs hl).mp hm
    generalize t.hops = hops at ht hpath
    cases hpath with
    | arrived => exact absurd rfl ht
    | hop found _ _ _ => rw [found, Option.map_some, hs.own_id _ _ found]
  rw [List.map_filterMap, List.filterMap_congr hshown, List.filterMap_some]

theorem vertex?_of_mem_filterMap (hs : s.WellFormed) {ids : List VertexId} {v : Vertex}
    (hv : v ∈ ids.filterMap s.vertex?) : s.vertex? v.id = some v := by
  obtain ⟨id, _, hid⟩ := List.mem_filterMap.mp hv
  rw [hs.own_id id v hid]
  exact hid

end Eager

end Traversal

namespace Cursor

/-- Driven for enough steps, the cursor hands out the items up to as many as are asked for. -/
def Delivers (w : Workspace) (c : Cursor) (items : List Item) : Prop :=
  ∃ bound, ∀ steps, bound ≤ steps → ∀ count, (c.pullWithin w steps count).1 = items.take count

section Delivery

variable {w : Workspace} {view : View} {s : Seq Workspace VertexId} {ids : List VertexId}

/-- With enough steps the next item comes, or the end if no vertex can be shown. -/
theorem nextShown_of_yields (h : s.Yields w ids) :
    ∃ rest ids', rest.Yields w ids' ∧ ids'.filterMap (view.show? w) =
        (ids.filterMap (view.show? w)).tail
      ∧ ∃ bound, ∀ steps fuel, bound ≤ steps → bound ≤ fuel →
        nextShown w view steps fuel s = ((ids.filterMap (view.show? w)).head?, rest) := by
  induction ids generalizing s with
  | nil =>
    obtain ⟨rest, hr, bound, hb⟩ := h.next_nil
    refine ⟨rest, [], hr, rfl, bound + 1, fun steps fuel hs hf => ?_⟩
    obtain ⟨n, rfl⟩ := Nat.exists_eq_add_of_le' (Nat.le_of_add_left_le hf)
    simp only [nextShown, hb steps (by omega), List.filterMap_nil, List.head?_nil]
  | cons id ids ih =>
    obtain ⟨rest, hr, bound, hb⟩ := h.next_cons
    cases hshow : view.show? w id with
    | some item =>
      rw [List.filterMap_cons_some hshow]
      refine ⟨rest, ids, hr, rfl, bound + 1, fun steps fuel hs hf => ?_⟩
      obtain ⟨n, rfl⟩ := Nat.exists_eq_add_of_le' (Nat.le_of_add_left_le hf)
      simp only [nextShown, hb steps (by omega), hshow, List.head?_cons]
    | none =>
      rw [List.filterMap_cons_none hshow]
      obtain ⟨rest', ids', hr', htail, bound', hb'⟩ := ih hr
      refine ⟨rest', ids', hr', htail, bound + bound' + 1, fun steps fuel hs hf => ?_⟩
      obtain ⟨n, rfl⟩ := Nat.exists_eq_add_of_le' (Nat.le_of_add_left_le hf)
      simp only [nextShown, hb steps (by omega), hshow]
      exact hb' steps n (by omega) (by omega)

theorem delivers_of_yields (h : s.Yields w ids) :
    (vertices view s).Delivers w (ids.filterMap (view.show? w)) := by
  generalize hi : ids.filterMap (view.show? w) = items
  induction items generalizing s ids with
  | nil =>
    obtain ⟨rest, _, _, _, bound, hb⟩ := nextShown_of_yields h
    refine ⟨bound, fun steps hs count => ?_⟩
    have hnext := hb steps steps hs hs
    rw [hi] at hnext
    cases count <;> simp [pullWithin, takeShown, hnext]
  | cons item items ih =>
    obtain ⟨rest, ids', hr, htail, bound, hb⟩ := nextShown_of_yields h
    rw [hi] at htail hb
    obtain ⟨bound', hb'⟩ := ih hr htail
    refine ⟨bound + bound', fun steps hs count => ?_⟩
    have hnext := hb steps steps (by omega) (by omega)
    cases count with
    | zero => simp [pullWithin, takeShown]
    | succ count =>
      have hrest := hb' steps (by omega) count
      simp only [pullWithin] at hrest
      simp [pullWithin, takeShown, hnext, hrest]

end Delivery

end Cursor

namespace Workspace

open Traversal

variable {w : Workspace} {g : GraphId}

/-- Driven to its end, the sequence gives the ids of the vertices that are there now. -/
theorem present_yields (w : Workspace) (g : GraphId) (type : Option String) :
    (present g (w.ids g type)).Yields w
      ((((w.store g).idsOf type).filterMap (w.store g).vertex?).map Vertex.id) := by
  rw [List.map_filterMap]
  exact (Seq.yields_ofList w _).filterMap
    (fun later id => ((later.store g).vertex? id).map Vertex.id)

/-- A traversal hands out what it reaches: as records, or through a registry as instances, as far
as the types are registered. -/
theorem delivers_reached (w : Workspace) (g : GraphId) (t : Traversal) (seeds : List VertexId) :
    let found := (t.reach (w.store g) seeds).filterMap (w.store g).vertex?
    (Cursor.ofTraversal w (.record g) t (.ofList seeds)).Delivers w (found.map .record)
      ∧ ∀ r, w.graphOf r = g →
        (Cursor.ofTraversal w (.projected r) t (.ofList seeds)).Delivers w
          (found.filterMap (fun v => (w.model? r v.type).map (fun m => .viewed ⟨r, v.id, m⟩))) := by
  have hyields :=
    startingWith_yields (fun w : Workspace => w.store g) t (Seq.yields_ofList w seeds)
  constructor
  · rw [List.map_filterMap]
    exact Cursor.delivers_of_yields hyields
  · rintro r rfl
    have hview : ∀ id ∈ t.reach (w.store (w.graphOf r)) seeds,
        (((w.store (w.graphOf r)).vertex? id).bind fun v =>
          (w.model? r v.type).map (fun m => Item.viewed ⟨r, v.id, m⟩)) =
        (View.projected r).show? w id := by
      intro id _
      simp only [View.show?, instanceOfId?, instanceOf?, Option.map_bind, Function.comp_def,
        Option.map_map]
    rw [List.filterMap_filterMap, List.filterMap_congr hview]
    exact Cursor.delivers_of_yields hyields

/-- One hop hands out the vertices that an edge of its type leads from to the seed. -/
theorem hop_finds_origins (hw : (w.store g).WellFormed) (name : String) (seed : VertexId) :
    ∃ found : List Vertex,
      (found.map Vertex.id).Nodup
        ∧ (∀ v ∈ found, (w.store g).vertex? v.id = some v)
        ∧ (∀ id, id ∈ found.map Vertex.id ↔ (w.store g).hasEdge ⟨id, seed, name⟩ = true)
        ∧ (Cursor.ofTraversal w (.record g) (start.via name) (.ofList [seed])).Delivers w
          (found.map .record)
        ∧ ∀ r, w.graphOf r = g →
          (Cursor.ofTraversal w (.projected r) (start.via name) (.ofList [seed])).Delivers w
            (found.filterMap (fun v =>
              (w.model? r v.type).map (fun m => .viewed ⟨r, v.id, m⟩))) := by
  have hhop : (start.via name).hops ≠ [] := by simp [via]
  have hids := ids_reach hw hhop (by simp [via, start]) [seed]
  refine ⟨_, ?_, fun v hv => vertex?_of_mem_filterMap hw hv, fun id => ?_,
    delivers_reached w g (start.via name) [seed]⟩
  · rw [hids]
    exact nodup_reach _ hhop [seed]
  · rw [hids]
    exact mem_reach_via hw

/-- A traversal of a store that was built by calls hands out exactly the vertices that a path
along its hops leads from, each of them once. Through a registry only those of registered types
come, as instances of their models. -/
theorem traversal_finds_path_starts {calls : List Call} (hs : w.store g = Store.empty.run calls)
    {t : Traversal} (ht : t.hops ≠ []) (hl : ∀ h ∈ t.hops, h.limit = none)
    (seeds : List VertexId) :
    ∃ found : List Vertex,
      (found.map Vertex.id).Nodup
        ∧ (∀ v ∈ found, (w.store g).vertex? v.id = some v)
        ∧ (∀ id, id ∈ found.map Vertex.id ↔ ∃ seed ∈ seeds, Leads (w.store g) t.hops id seed)
        ∧ (Cursor.ofTraversal w (.record g) t (.ofList seeds)).Delivers w (found.map .record)
        ∧ ∀ r, w.graphOf r = g →
          (Cursor.ofTraversal w (.projected r) t (.ofList seeds)).Delivers w
            (found.filterMap (fun v =>
              (w.model? r v.type).map (fun m => .viewed ⟨r, v.id, m⟩))) := by
  have hw : (w.store g).WellFormed := hs ▸ Store.wellFormed_empty.run calls
  have hids := ids_reach hw ht hl seeds
  refine ⟨_, ?_, fun v hv => vertex?_of_mem_filterMap hw hv, fun id => ?_,
    delivers_reached w g t seeds⟩
  · rw [hids]
    exact nodup_reach _ ht seeds
  · rw [hids]
    exact mem_reach hw hl

/-- Whom "a" likes knows "c", so "a" is found from "c", though the one between has a type that is
not registered. -/
theorem liker_is_found :
    let calls : List Call := [.perform (.setVertex "a" "Person" []),
      .perform (.setVertex "b" "Robot" []), .perform (.setVertex "c" "Person" []),
      .perform (.setEdge ⟨"a", "b", "likes"⟩), .perform (.setEdge ⟨"b", "c", "knows"⟩),
      .perform (.setEdge ⟨"b", "b", "likes"⟩)]
    let w := (Workspace.mk [⟨Store.empty.run calls, []⟩] [] [⟨0, .empty, .uuid, 0⟩]
      countedUuid).register 0 (.ofType "Person")
    let t := (Traversal.start.via "likes").via "knows"
    ∃ found : List Vertex, "a" ∈ found.map Vertex.id ∧ (found.map Vertex.id).Nodup
      ∧ (Cursor.ofTraversal w (.projected 0) t (.ofList ["c", "c"])).Delivers w
        (found.filterMap (fun v => (w.model? 0 v.type).map (fun m => .viewed ⟨0, v.id, m⟩))) := by
  intro calls w t
  have hs : w.store 0 = Store.empty.run calls := rfl
  have ht : t.hops ≠ [] := by simp [t, Traversal.via]
  have hl : ∀ h ∈ t.hops, h.limit = none := by simp [t, Traversal.via, Traversal.start]
  obtain ⟨found, hnodup, -, hpaths, -, hviewed⟩ :=
    traversal_finds_path_starts hs ht hl ["c", "c"]
  have hknows : Leads (w.store 0) [⟨"knows", none, none⟩] "b" "c" :=
    .hop (v := ⟨"b", "Robot", []⟩) rfl nofun (by decide) (.arrived "c")
  have hlikes : Leads (w.store 0) t.hops "a" "c" :=
    .hop (v := ⟨"a", "Person", []⟩) rfl nofun (by decide) hknows
  exact ⟨found, (hpaths "a").mpr ⟨"c", by simp, hlikes⟩, hnodup, hviewed 0 rfl⟩

end Workspace

end PropertyGraph
