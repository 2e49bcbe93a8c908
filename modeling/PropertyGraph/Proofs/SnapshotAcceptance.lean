import PropertyGraph.Proofs.Wired

namespace PropertyGraph

/-- The types that one side of the adjacency lists for two vertices. -/
def between? (side : OrderedMap VertexId Adjacency) (owner neighbor : VertexId) :
    Option (List String) :=
  (side.get? owner).bind (fun a => a.get? neighbor)

/-- One side of the adjacency belongs to vertices and names vertices, each with types of which none
is listed twice. -/
structure Attached (vertices : OrderedMap VertexId Vertex) (side : OrderedMap VertexId Adjacency) :
    Prop where
  owner : ∀ a ∈ side.keys, a ∈ vertices.keys
  neighbor : ∀ a b types, between? side a b = some types → b ∈ vertices.keys
  types : ∀ a b types, between? side a b = some types → types ≠ [] ∧ types.Nodup

/-- Both sides of the adjacency are attached to the vertices, have entries for the same pairs, and
list the same types there, in any order. -/
structure Balanced (vertices : OrderedMap VertexId Vertex)
    (outgoing incoming : OrderedMap VertexId Adjacency) : Prop where
  outgoing_attached : Attached vertices outgoing
  incoming_attached : Attached vertices incoming
  paired : ∀ a b, (between? outgoing a b).isSome ↔ (between? incoming b a).isSome
  alike : ∀ a b types back, between? outgoing a b = some types →
    between? incoming b a = some back → ∀ t, t ∈ types ↔ t ∈ back

section Sides

variable {vertices : OrderedMap VertexId Vertex} {this other : OrderedMap VertexId Adjacency}
  {side : OrderedMap VertexId Adjacency} {a b : VertexId} {types : List String}

theorem between?_eq_some :
    between? side a b = some types ↔ ∃ adjacency, side.get? a = some adjacency ∧
      adjacency.get? b = some types :=
  Option.bind_eq_some_iff

theorem attached_of_pruned (hp : ∀ a, ((side.get? a).getD .empty).Pruned)
    (howner : ∀ a ∈ side.keys, a ∈ vertices.keys)
    (hneighbor : ∀ a b, ∀ t ∈ ((side.get? a).getD .empty).types b, b ∈ vertices.keys) :
    Attached vertices side := by
  have hlist : ∀ {a b types}, between? side a b = some types →
      types = ((side.get? a).getD .empty).types b ∧ types ≠ [] := by
    intro a b types hb
    exact Adjacency.nonempty?_eq_some (((hp a).bind_get?_eq b).symm.trans hb)
  refine ⟨howner, fun a b types hb => ?_, fun a b types hb => ?_⟩
  · obtain ⟨rfl, hne⟩ := hlist hb
    obtain ⟨t, ht⟩ := List.exists_mem_of_ne_nil _ hne
    exact hneighbor a b t ht
  · obtain ⟨rfl, hne⟩ := hlist hb
    exact ⟨hne, (hp a).nodup b⟩

namespace Snapshot

theorem mem_iff_of_subset {types back : List String} (hn : types.Nodup)
    (hlen : back.length = types.length) (hsub : types ⊆ back) (t : String) :
    t ∈ types ↔ t ∈ back :=
  ((List.subperm_of_subset hn hsub).perm_of_length_le hlen.le).mem_iff

theorem SideFits.attached (h : SideFits vertices this other) : Attached vertices this where
  owner a ha := by
    obtain ⟨adjacency, hget⟩ := this.mem_keys_iff.mp ha
    exact (h a adjacency hget).1
  neighbor a b types hb := by
    obtain ⟨adjacency, hget, hb⟩ := between?_eq_some.mp hb
    exact ((h a adjacency hget).2 b types hb).1
  types a b types hb := by
    obtain ⟨adjacency, hget, hb⟩ := between?_eq_some.mp hb
    obtain ⟨_, hne, hn, _⟩ := (h a adjacency hget).2 b types hb
    exact ⟨hne, hn⟩

/-- What one side lists has an entry on the other side, with the same members. -/
theorem SideFits.counterpart (h : SideFits vertices this other)
    (hb : between? this a b = some types) :
    ∃ back, between? other b a = some back ∧ ∀ t, t ∈ types ↔ t ∈ back := by
  obtain ⟨adjacency, hget, hb⟩ := between?_eq_some.mp hb
  obtain ⟨_, _, hn, hm⟩ := (h a adjacency hget).2 b types hb
  obtain ⟨back, hback, hlen, hsub⟩ := mirrored_iff.mp hm
  exact ⟨back, hback, mem_iff_of_subset hn hlen hsub⟩

/-- One side fits if it is attached and everything that it lists has a counterpart. -/
theorem sideFits_of_counterparts (hthis : Attached vertices this) (hother : Attached vertices other)
    (h : ∀ a b types, between? this a b = some types →
      ∃ back, between? other b a = some back ∧ ∀ t, t ∈ types ↔ t ∈ back) :
    SideFits vertices this other := by
  intro a adjacency hget
  refine ⟨hthis.owner a (OrderedMap.mem_keys_of_get? hget), fun b types hb => ?_⟩
  have hbetween : between? this a b = some types := between?_eq_some.mpr ⟨adjacency, hget, hb⟩
  obtain ⟨hne, hn⟩ := hthis.types a b types hbetween
  obtain ⟨back, hback, hsame⟩ := h a b types hbetween
  have hperm : types.Perm back :=
    (List.perm_ext_iff_of_nodup hn (hother.types b a back hback).2).mpr hsame
  exact ⟨hthis.neighbor a b types hbetween, hne, hn,
    mirrored_iff.mpr ⟨back, hback, hperm.length_eq.symm, hperm.subset⟩⟩

/-- The two scans find nothing exactly if the two sides are balanced. -/
theorem sideFits_iff_balanced {outgoing incoming : OrderedMap VertexId Adjacency} :
    SideFits vertices outgoing incoming ∧ SideFits vertices incoming outgoing ↔
      Balanced vertices outgoing incoming := by
  constructor
  · rintro ⟨ho, hi⟩
    refine ⟨ho.attached, hi.attached, fun a b => ?_, fun a b types back hb hback => ?_⟩
    · simp only [Option.isSome_iff_exists]
      constructor
      · rintro ⟨types, hb⟩
        obtain ⟨back, hback, _⟩ := ho.counterpart hb
        exact ⟨back, hback⟩
      · rintro ⟨back, hb⟩
        obtain ⟨types, htypes, _⟩ := hi.counterpart hb
        exact ⟨types, htypes⟩
    · obtain ⟨_, hback', hsame⟩ := ho.counterpart hb
      obtain rfl := Option.some.inj (hback.symm.trans hback')
      exact hsame
  · intro h
    refine ⟨sideFits_of_counterparts h.outgoing_attached h.incoming_attached
        (fun a b types hb => ?_),
      sideFits_of_counterparts h.incoming_attached h.outgoing_attached (fun b a back hb => ?_)⟩
    · obtain ⟨back, hback⟩ := Option.isSome_iff_exists.mp
        ((h.paired a b).mp (Option.isSome_iff_exists.mpr ⟨types, hb⟩))
      exact ⟨back, hback, h.alike a b types back hb hback⟩
    · obtain ⟨types, htypes⟩ := Option.isSome_iff_exists.mp
        ((h.paired a b).mpr (Option.isSome_iff_exists.mpr ⟨back, hb⟩))
      exact ⟨types, htypes, fun t => (h.alike a b types back htypes hb t).symm⟩

def lacking (ids : List VertexId) (side : OrderedMap VertexId Adjacency) :
    List (VertexId × Adjacency) :=
  (ids.filter (fun id => id ∉ side.keys)).map (fun id => (id, .empty))

/-- What is there stays in its place, and what is lacking comes behind it. -/
theorem entries_completed {ids : List VertexId} (hn : ids.Nodup)
    (side : OrderedMap VertexId Adjacency) :
    (completed ids side).entries = side.entries ++ lacking ids side := by
  unfold completed
  induction ids generalizing side with
  | nil => simp [lacking]
  | cons id rest ih =>
    obtain ⟨hid, hn⟩ := List.nodup_cons.mp hn
    rw [List.foldl_cons]
    by_cases hm : id ∈ side.keys
    · have hsame : lacking (id :: rest) side = lacking rest side := by simp [lacking, hm]
      rw [if_pos (side.contains_iff.mpr hm), ih hn, hsame]
    · have hc : ¬ side.contains id = true := fun hc => hm (side.contains_iff.mp hc)
      have hmore : lacking (id :: rest) side =
          (id, .empty) :: lacking rest (side.insert id .empty) := by
        have hkeys : rest.filter (fun x => decide (x ∉ side.keys)) =
            rest.filter (fun x => decide (x ∉ (side.insert id .empty).keys)) := by
          refine List.filter_congr (fun x hx => ?_)
          have hne : x ≠ id := fun he => hid (he ▸ hx)
          simp [OrderedMap.mem_keys_insert, hne]
        rw [lacking, List.filter_cons_of_pos (by simpa using hm), List.map_cons, hkeys, lacking]
      rw [if_neg hc, ih hn, OrderedMap.entries_insert_of_not_mem hm, hmore, ← List.append_cons]

end Snapshot

end Sides

theorem Store.Wired.balanced {s : Store} (h : s.Wired) :
    Balanced s.vertices s.outgoing s.incoming := by
  have hends : ∀ a b, ∀ t ∈ (s.outgoingOf a).types b, a ∈ s.vertices.keys ∧ b ∈ s.vertices.keys :=
    fun a b t ht => h.ends (e := ⟨a, b, t⟩) (hasEdge_iff.mpr ht)
  have hout : ∀ a b, between? s.outgoing a b = Adjacency.nonempty? ((s.outgoingOf a).types b) :=
    fun a b => (h.mirrored.outgoing a).bind_get?_eq b
  have hin : ∀ a b, between? s.incoming b a = Adjacency.nonempty? ((s.incomingOf b).types a) :=
    fun a b => (h.mirrored.incoming b).bind_get?_eq a
  refine ⟨attached_of_pruned h.mirrored.outgoing (fun a => (h.keyed.outgoing a).mp) ?_,
    attached_of_pruned h.mirrored.incoming (fun a => (h.keyed.incoming a).mp) ?_, ?_, ?_⟩
  · intro a b t ht
    exact (hends a b t ht).2
  · intro b a t ht
    exact (hends a b t ((h.mirrored.agree a b t).mpr ht)).1
  · intro a b
    simp only [hout, hin, Adjacency.isSome_nonempty?_iff, h.mirrored.agree a b]
  · intro a b types back hb hback
    obtain ⟨rfl, _⟩ := Adjacency.nonempty?_eq_some ((hout a b).symm.trans hb)
    obtain ⟨rfl, _⟩ := Adjacency.nonempty?_eq_some ((hin a b).symm.trans hback)
    exact h.mirrored.agree a b

namespace Snapshot

/-- A snapshot is accepted exactly if its adjacency is balanced, each bucket names vertices of its
type, and each vertex is in the bucket of its type. What is restored has the four maps of the
snapshot, with an empty adjacency for each vertex that had none, and stays balanced. -/
theorem restores_exactly_what_fits (s : Snapshot) :
    ((∃ t, s.restore = .ok t) ↔
      Balanced s.vertices s.outgoing s.incoming ∧
      (∀ type bucket, s.typeIndex.get? type = some bucket →
        ∀ id ∈ bucket.elems, ∃ v, s.vertices.get? id = some v ∧ v.type = type) ∧
      ∀ id v, s.vertices.get? id = some v →
        ∃ bucket, s.typeIndex.get? v.type = some bucket ∧ id ∈ bucket.elems) ∧
    (∀ e, s.restore = .error e → ∃ fault, e = .badSnapshot fault) ∧
    ∀ t, s.restore = .ok t →
      t.vertices = s.vertices ∧ t.typeIndex = s.typeIndex ∧
      t.outgoing.entries = s.outgoing.entries ++ lacking s.vertices.keys s.outgoing ∧
      t.incoming.entries = s.incoming.entries ++ lacking s.vertices.keys s.incoming ∧
      ∀ calls, Balanced (t.run calls).vertices (t.run calls).outgoing (t.run calls).incoming := by
  refine ⟨?_, ?_, ?_⟩
  · have haccepted : (∃ t, s.restore = .ok t) ↔ s.Consistent := by
      simp only [restore_eq_ok_iff, exists_and_left, exists_eq, and_true]
    rw [haccepted, ← sideFits_iff_balanced]
    constructor
    · intro h
      exact ⟨⟨h.outgoing, h.incoming⟩, h.filed, h.indexed⟩
    · rintro ⟨⟨houtgoing, hincoming⟩, hfiled, hindexed⟩
      exact ⟨houtgoing, hincoming, hfiled, hindexed⟩
  · intro e he
    unfold restore at he
    split at he
    · next fault _ =>
      cases he
      exact ⟨fault, rfl⟩
    · cases he
  · intro t ht
    have hrun : ∀ calls, (t.run calls).Wired := fun calls =>
      ((Store.Attained.restored s t ht).run calls).wired
    obtain ⟨_, rfl⟩ := restore_eq_ok_iff.mp ht
    exact ⟨rfl, rfl, entries_completed s.vertices.keys_nodup s.outgoing,
      entries_completed s.vertices.keys_nodup s.incoming, fun calls => (hrun calls).balanced⟩

/-- The two sides list the types in different orders, and one vertex has no entries: this is
accepted. Without one of the types on one side it would not be. -/
theorem sides_in_other_orders_are_restored :
    let vertices : OrderedMap VertexId Vertex :=
      .ofList [("a", ⟨"a", "Person", []⟩), ("b", ⟨"b", "Robot", []⟩), ("c", ⟨"c", "Robot", []⟩)]
    let index : OrderedMap String (OrderedSet VertexId) :=
      .ofList [("Robot", .ofList ["c", "b"]), ("Person", .ofList ["a"])]
    let outgoing : OrderedMap VertexId Adjacency :=
      .ofList [("a", .ofList [("b", ["owns", "likes"])])]
    let s : Snapshot := ⟨vertices, outgoing, .ofList [("b", .ofList [("a", ["likes", "owns"])])],
      index⟩
    let half : Snapshot := ⟨vertices, outgoing, .ofList [("b", .ofList [("a", ["likes"])])], index⟩
    (∃ t, s.restore = .ok t ∧ t.outgoing.keys = ["a", "b", "c"] ∧
      Balanced t.vertices t.outgoing t.incoming) ∧
    ¬ Balanced half.vertices half.outgoing half.incoming := by
  intro vertices index outgoing s half
  have hs : s.restore = .ok s.store := by rfl
  have hhalf : half.restore = .error (.badSnapshot (.notMirrored .outgoing "a" "b")) := by rfl
  obtain ⟨haccepted, _, hrestored⟩ := restores_exactly_what_fits s
  obtain ⟨_, _, _, _, hruns⟩ := hrestored s.store hs
  refine ⟨⟨s.store, hs, by decide, hruns []⟩, fun hbalanced => ?_⟩
  obtain ⟨t, ht⟩ := (restores_exactly_what_fits half).1.mpr
    ⟨hbalanced, (haccepted.mp ⟨s.store, hs⟩).2⟩
  rw [hhalf] at ht
  cases ht

end Snapshot

end PropertyGraph
