import PropertyGraph.Proofs.OrderedMap
import PropertyGraph.Store.Basic

namespace PropertyGraph.Adjacency

variable {a : Adjacency} {n : VertexId} {t : String}

/-- No neighbour is listed without an edge type, and none has a type twice. -/
def Pruned (a : Adjacency) : Prop :=
  ∀ n types, a.get? n = some types → types ≠ [] ∧ types.Nodup

/-- The entry of a neighbour with these edge types. -/
def nonempty? (types : List String) : Option (List String) :=
  if types = [] then none else some types

@[simp]
theorem nonempty?_getD (types : List String) : (nonempty? types).getD [] = types := by
  unfold nonempty?
  split <;> simp_all

theorem nonempty?_eq_some {types ts : List String} (h : nonempty? types = some ts) :
    ts = types ∧ ts ≠ [] := by
  unfold nonempty? at h
  split at h
  · cases h
  · next hn =>
    cases h
    exact ⟨rfl, hn⟩

theorem isSome_nonempty?_iff {types : List String} :
    (nonempty? types).isSome ↔ ∃ t, t ∈ types := by
  cases types <;> simp [nonempty?]

theorem Pruned.get?_eq (h : a.Pruned) (n : VertexId) : a.get? n = nonempty? (a.types n) := by
  unfold types nonempty?
  cases hg : a.get? n with
  | none => simp
  | some ts => simp [(h n ts hg).1]

/-- A missing adjacency has no entries, as an empty one. -/
theorem Pruned.bind_get?_eq {side : OrderedMap VertexId Adjacency} {id : VertexId}
    (h : ((side.get? id).getD .empty).Pruned) (n : VertexId) :
    (side.get? id).bind (fun a => a.get? n) =
      nonempty? (((side.get? id).getD .empty).types n) := by
  rw [← h.get?_eq]
  cases side.get? id <;> rfl

theorem Pruned.nodup (h : a.Pruned) (n : VertexId) : (a.types n).Nodup := by
  unfold types
  cases hg : a.get? n with
  | none => simp
  | some ts => exact (h n ts hg).2

/-- Each neighbour of a pruned adjacency has an edge. -/
theorem Pruned.mem_keys_iff (h : a.Pruned) : n ∈ a.keys ↔ ∃ t, t ∈ a.types n := by
  rw [OrderedMap.mem_keys_iff, h.get?_eq]
  constructor
  · rintro ⟨ts, hts⟩
    obtain ⟨rfl, hne⟩ := nonempty?_eq_some hts
    exact List.exists_mem_of_ne_nil _ hne
  · rintro ⟨t, ht⟩
    exact ⟨a.types n, if_neg (List.ne_nil_of_mem ht)⟩

theorem pruned_empty : Pruned .empty := by
  intro n types h
  cases h

@[simp]
theorem types_empty (n : VertexId) : types .empty n = [] := rfl

theorem types_insert (a : Adjacency) (n m : VertexId) (ts : List String) :
    types (a.insert n ts) m = if m = n then ts else a.types m := by
  unfold types
  rw [OrderedMap.get?_insert]
  split <;> rfl

theorem types_link (a : Adjacency) (n m : VertexId) (t : String) :
    (a.link n t).types m = if m = n then a.types m ++ [t] else a.types m := by
  rw [link, types_insert]
  split
  · next h => rw [h]
  · rfl

theorem Pruned.link (h : a.Pruned) (hn : t ∉ a.types n) : (a.link n t).Pruned := by
  intro m ts hg
  rw [Adjacency.link, OrderedMap.get?_insert] at hg
  split at hg
  · cases hg
    refine ⟨by simp, List.nodup_append.mpr ⟨h.nodup n, by simp, ?_⟩⟩
    intro b hb c hc he
    rw [List.mem_singleton.mp hc] at he
    exact hn (he ▸ hb)
  · exact h m ts hg

/-- The edges that a condition keeps, in their places. -/
def restrict (a : Adjacency) (keep : VertexId → String → Bool) : Adjacency :=
  a.filterMap (fun n ts => nonempty? (ts.filter (keep n)))

theorem get?_restrict (a : Adjacency) (keep : VertexId → String → Bool) (n : VertexId) :
    (a.restrict keep).get? n = nonempty? ((a.types n).filter (keep n)) := by
  rw [restrict, OrderedMap.get?_filterMap, types]
  cases a.get? n <;> rfl

@[simp]
theorem types_restrict (a : Adjacency) (keep : VertexId → String → Bool) (n : VertexId) :
    (a.restrict keep).types n = (a.types n).filter (keep n) := by
  rw [types, get?_restrict, nonempty?_getD]

theorem Pruned.restrict (h : a.Pruned) (keep : VertexId → String → Bool) :
    (a.restrict keep).Pruned := by
  intro n ts hg
  rw [get?_restrict] at hg
  obtain ⟨rfl, hne⟩ := nonempty?_eq_some hg
  exact ⟨hne, (h.nodup n).filter _⟩

theorem keys_restrict_sublist (a : Adjacency) (keep : VertexId → String → Bool) :
    (a.restrict keep).keys.Sublist a.keys :=
  a.keys_filterMap_sublist _

/-- Pruned adjacencies that list their neighbours in one order are equal if all types are. -/
theorem eq_of_types {b : Adjacency} {ns : List VertexId} (hns : ns.Nodup)
    (ha : a.keys.Sublist ns) (hb : b.keys.Sublist ns) (hpa : a.Pruned) (hpb : b.Pruned)
    (h : ∀ n, a.types n = b.types n) : a = b := by
  refine OrderedMap.ext_sublist hns ha hb ?_
  intro n
  rw [hpa.get?_eq, hpb.get?_eq, h n]

theorem restrict_restrict (h : a.Pruned) (p q : VertexId → String → Bool) :
    (a.restrict p).restrict q = a.restrict (fun n t => p n t && q n t) := by
  refine eq_of_types a.keys_nodup
    ((keys_restrict_sublist _ q).trans (keys_restrict_sublist a p)) (keys_restrict_sublist a _)
    ((h.restrict p).restrict q) (h.restrict _) ?_
  intro n
  simp only [types_restrict, List.filter_filter]
  simp only [Bool.and_comm]

/-- A condition that all edges meet keeps everything. -/
theorem restrict_eq_self (h : a.Pruned) {keep : VertexId → String → Bool}
    (hk : ∀ n, ∀ t ∈ a.types n, keep n t = true) : a.restrict keep = a := by
  refine eq_of_types a.keys_nodup (keys_restrict_sublist a _) (List.Sublist.refl _)
    (h.restrict _) h ?_
  intro n
  rw [types_restrict, List.filter_eq_self.mpr (hk n)]

theorem restrict_congr (h : a.Pruned) {p q : VertexId → String → Bool}
    (hpq : ∀ n, ∀ t ∈ a.types n, p n t = q n t) : a.restrict p = a.restrict q := by
  refine eq_of_types a.keys_nodup (keys_restrict_sublist a p) (keys_restrict_sublist a q)
    (h.restrict p) (h.restrict q) ?_
  intro n
  rw [types_restrict, types_restrict, List.filter_congr (hpq n)]

theorem get?_put (a : Adjacency) (n m : VertexId) (ts : List String) :
    (a.put n ts).get? m = if m = n then nonempty? ts else a.get? m := by
  unfold put nonempty?
  split
  · rw [OrderedMap.get?_erase]
  · rw [OrderedMap.get?_insert]

/-- Writing what a condition keeps of the types to one neighbour restricts the adjacency to it,
as long as it keeps the edges to all others. -/
theorem put_eq_restrict (h : a.Pruned) {keep : VertexId → String → Bool}
    (hk : ∀ m, m ≠ n → ∀ t ∈ a.types m, keep m t = true) :
    a.put n ((a.types n).filter (keep n)) = a.restrict keep := by
  have hkeys : (a.put n ((a.types n).filter (keep n))).keys.Sublist a.keys := by
    unfold put
    split
    · rw [OrderedMap.keys_erase]
      exact List.filter_sublist
    · next hne =>
      obtain ⟨t, ht⟩ := List.exists_mem_of_ne_nil _ hne
      have hn : n ∈ a.keys := h.mem_keys_iff.mpr ⟨t, (List.mem_filter.mp ht).1⟩
      rw [OrderedMap.keys_insert_of_mem hn]
  refine OrderedMap.ext_sublist a.keys_nodup hkeys (keys_restrict_sublist a _) ?_
  intro m
  rw [get?_put, get?_restrict]
  split
  · next he => rw [he]
  · next hne => rw [List.filter_eq_self.mpr (hk m hne), h.get?_eq]

/-- The condition that takes one edge type from one neighbour. -/
def other (n : VertexId) (t : String) : VertexId → String → Bool :=
  fun m u => decide (¬ (m = n ∧ u = t))

theorem discard_eq_restrict (h : a.Pruned) (n : VertexId) (t : String) :
    a.discard n t = a.restrict (other n t) := by
  rw [discard, ← put_eq_restrict (n := n) h]
  · congr 2
    funext u
    simp [other]
  · intro m hne u _
    simp [other, hne]

/-- No type stands twice, so taking it where it stands first takes it everywhere. -/
theorem unlink_eq_restrict (h : a.Pruned) (n : VertexId) (t : String) :
    a.unlink n t = a.restrict (other n t) := by
  rw [← discard_eq_restrict h, unlink, discard, (h.nodup n).erase_eq_filter]
  congr 2
  funext u
  simp [bne, beq_eq_decide]

/-- The edges as pairs of a neighbour and a type, in the order of the entries. -/
def links (a : Adjacency) : List (VertexId × String) :=
  a.entries.flatMap (fun e => e.2.map (fun t => (e.1, t)))

theorem mem_links : (n, t) ∈ a.links ↔ t ∈ a.types n := by
  simp only [links, List.mem_flatMap, List.mem_map, Prod.mk.injEq, exists_eq_right_right]
  constructor
  · rintro ⟨⟨m, ts⟩, he, ht, rfl⟩
    have hg : a.get? m = some ts := OrderedMap.mem_entries_iff.mp he
    simpa [types, hg] using ht
  · intro ht
    unfold types at ht
    cases hg : a.get? n with
    | none => simp [hg] at ht
    | some ts =>
      exact ⟨(n, ts), OrderedMap.mem_entries_iff.mpr hg, by simpa [hg] using ht, rfl⟩

theorem Pruned.nodup_links (h : a.Pruned) : a.links.Nodup := by
  refine List.nodup_flatMap.mpr ⟨?_, ?_⟩
  · intro e he
    have hg : a.get? e.1 = some e.2 := OrderedMap.mem_entries_iff.mp he
    exact (h e.1 e.2 hg).2.map (fun t u htu => (Prod.mk.inj htu).2)
  · refine (List.pairwise_map.mp a.nodup).imp ?_
    intro e f hne l hl hl'
    obtain ⟨t, _, rfl⟩ := List.mem_map.mp hl
    obtain ⟨u, _, hu⟩ := List.mem_map.mp hl'
    exact hne (Prod.mk.inj hu).1.symm

theorem links_restrict (a : Adjacency) (keep : VertexId → String → Bool) :
    (a.restrict keep).links = a.links.filter (fun l => keep l.1 l.2) := by
  unfold links restrict OrderedMap.filterMap
  dsimp only
  induction a.entries with
  | nil => rfl
  | cons e rest ih =>
    have hf : (e.2.map (fun t => (e.1, t))).filter (fun l => keep l.1 l.2) =
        (e.2.filter (keep e.1)).map (fun t => (e.1, t)) := by
      rw [List.filter_map]
      rfl
    rw [Entries.filterMap_cons, List.flatMap_append, ih, List.flatMap_cons, List.filter_append, hf]
    congr 1
    -- A neighbour whose types are all dropped leaves no entry and had no edge to keep.
    by_cases hn : e.2.filter (keep e.1) = []
    · simp only [nonempty?, hn, ↓reduceIte, Option.map_none, Option.toList_none, List.flatMap_nil,
        List.map_nil]
    · simp only [nonempty?, hn, ↓reduceIte, Option.map_some, Option.toList_some, List.flatMap_cons,
        List.flatMap_nil, List.append_nil]

end PropertyGraph.Adjacency
