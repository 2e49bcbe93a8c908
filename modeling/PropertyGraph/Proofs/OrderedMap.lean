import Mathlib.Data.List.Nodup
import PropertyGraph.OrderedMap
import PropertyGraph.OrderedSet

namespace PropertyGraph

/-- A sublist of distinct items is what its members select. -/
theorem sublist_eq_filter {α : Type} [DecidableEq α] {xs ys : List α} (hn : ys.Nodup)
    (hs : xs.Sublist ys) : xs = ys.filter (fun a => a ∈ xs) := by
  induction hs with
  | slnil => rfl
  | @cons xs ys a hs ih =>
    obtain ⟨ha, hn⟩ := List.nodup_cons.mp hn
    have hx : a ∉ xs := fun hm => ha (hs.subset hm)
    simpa [hx] using ih hn
  | @cons_cons xs ys a hs ih =>
    obtain ⟨ha, hn⟩ := List.nodup_cons.mp hn
    have hc : ys.filter (fun b => b ∈ a :: xs) = ys.filter (fun b => b ∈ xs) := by
      apply List.filter_congr
      intro b hb
      have hne : b ≠ a := fun he => ha (he ▸ hb)
      simp [hne]
    rw [List.filter_cons_of_pos (by simp), hc, ← ih hn]

namespace Entries

variable {κ β γ : Type}

/-- What a function keeps of the entries, each in its place. -/
def filterMap (f : κ → β → Option γ) (entries : List (κ × β)) : List (κ × γ) :=
  entries.filterMap (fun e => (f e.1 e.2).map (fun c => (e.1, c)))

theorem filterMap_cons (f : κ → β → Option γ) (e : κ × β) (entries : List (κ × β)) :
    filterMap f (e :: entries) =
      ((f e.1 e.2).map (fun c => (e.1, c))).toList ++ filterMap f entries := by
  unfold filterMap
  cases hf : f e.1 e.2 <;> simp [hf]

theorem keys_filterMap_sublist (f : κ → β → Option γ) (entries : List (κ × β)) :
    ((filterMap f entries).map Prod.fst).Sublist (entries.map Prod.fst) := by
  induction entries with
  | nil => exact List.Sublist.slnil
  | cons e rest ih =>
    rw [filterMap_cons]
    cases f e.1 e.2 with
    | none => exact ih.cons e.1
    | some c => exact ih.cons_cons e.1

variable [DecidableEq κ]

theorem get?_eq_some_of_mem {entries : List (κ × β)} (h : (entries.map Prod.fst).Nodup) {k : κ}
    {v : β} (hm : (k, v) ∈ entries) : get? k entries = some v := by
  induction entries with
  | nil => simp at hm
  | cons e rest ih =>
    obtain ⟨a, b⟩ := e
    simp only [List.map_cons, List.nodup_cons] at h
    rcases List.mem_cons.mp hm with he | hr
    · obtain ⟨rfl, rfl⟩ := Prod.mk.inj he
      simp [get?]
    · have hne : a ≠ k := by
        intro he
        exact h.1 (he ▸ List.mem_map.mpr ⟨(k, v), hr, rfl⟩)
      simpa [get?, hne] using ih h.2 hr

theorem insert_of_not_mem {k : κ} {entries : List (κ × β)} (h : k ∉ entries.map Prod.fst) (v : β) :
    insert k v entries = entries ++ [(k, v)] := by
  induction entries with
  | nil => rfl
  | cons e rest ih =>
    rw [List.map_cons, List.mem_cons, not_or] at h
    rw [insert, if_neg (Ne.symm h.1), ih h.2, List.cons_append]

theorem mem_of_get?_eq_some {entries : List (κ × β)} {k : κ} {v : β}
    (h : get? k entries = some v) : (k, v) ∈ entries := by
  induction entries with
  | nil => simp [get?] at h
  | cons e rest ih =>
    obtain ⟨a, b⟩ := e
    by_cases hk : a = k
    · simp only [get?, hk, ↓reduceIte, Option.some.injEq] at h
      simp [hk, h]
    · simp only [get?, hk, ↓reduceIte] at h
      exact List.mem_cons_of_mem _ (ih h)

/-- Keys are distinct, so dropping the entry of a key uncovers no other entry of it. -/
theorem get?_filterMap {entries : List (κ × β)} (h : (entries.map Prod.fst).Nodup)
    (f : κ → β → Option γ) (k : κ) :
    get? k (filterMap f entries) = (get? k entries).bind (f k) := by
  induction entries with
  | nil => rfl
  | cons e rest ih =>
    obtain ⟨a, b⟩ := e
    simp only [List.map_cons, List.nodup_cons] at h
    have hr := ih h.2
    by_cases hk : a = k
    · subst hk
      have hn : get? a rest = none := get?_eq_none_iff.mpr h.1
      rw [hn] at hr
      rw [filterMap_cons]
      cases hf : f a b with
      | none => simpa [get?, hf] using hr
      | some c => simp [get?, hf]
    · rw [filterMap_cons]
      cases hf : f a b with
      | none => simpa [get?, hk] using hr
      | some c => simpa [get?, hk] using hr

end Entries

namespace OrderedMap

variable {κ β γ : Type}

theorem keys_nodup (m : OrderedMap κ β) : m.keys.Nodup := m.nodup

/-- What a function keeps of a map, each value in its place. -/
def filterMap (f : κ → β → Option γ) (m : OrderedMap κ β) : OrderedMap κ γ :=
  ⟨Entries.filterMap f m.entries, m.nodup.sublist (Entries.keys_filterMap_sublist f m.entries)⟩

theorem keys_filterMap_sublist (f : κ → β → Option γ) (m : OrderedMap κ β) :
    (m.filterMap f).keys.Sublist m.keys :=
  Entries.keys_filterMap_sublist f m.entries

variable [DecidableEq κ]

theorem get?_insert (m : OrderedMap κ β) (k k' : κ) (v : β) :
    (m.insert k v).get? k' = if k' = k then some v else m.get? k' := by
  split
  · next h => rw [h, m.get?_insert_self]
  · next h => rw [m.get?_insert_of_ne h]

theorem get?_erase (m : OrderedMap κ β) (k k' : κ) :
    (m.erase k).get? k' = if k' = k then none else m.get? k' := by
  split
  · next h => rw [h, m.get?_erase_self]
  · next h => rw [m.get?_erase_of_ne h]

theorem get?_modify (m : OrderedMap κ β) (k k' : κ) (f : β → β) :
    (m.modify k f).get? k' = if k' = k then (m.get? k).map f else m.get? k' := by
  unfold modify
  cases h : m.get? k with
  | none => by_cases hk : k' = k <;> simp [hk, h]
  | some v => simp [get?_insert]

theorem get?_filterMap (f : κ → β → Option γ) (m : OrderedMap κ β) (k : κ) :
    (m.filterMap f).get? k = (m.get? k).bind (f k) :=
  Entries.get?_filterMap m.nodup f k

theorem mem_entries_iff {m : OrderedMap κ β} {k : κ} {v : β} :
    (k, v) ∈ m.entries ↔ m.get? k = some v :=
  ⟨Entries.get?_eq_some_of_mem m.nodup, Entries.mem_of_get?_eq_some⟩

theorem mem_keys_iff (m : OrderedMap κ β) {k : κ} : k ∈ m.keys ↔ ∃ v, m.get? k = some v := by
  rw [← Option.isSome_iff_exists, Option.isSome_iff_ne_none, Ne, get?_eq_none_iff, not_not]

theorem contains_iff (m : OrderedMap κ β) {k : κ} : m.contains k = true ↔ k ∈ m.keys := by
  rw [mem_keys_iff, contains, Option.isSome_iff_exists]

theorem mem_keys_of_get? {m : OrderedMap κ β} {k : κ} {v : β} (h : m.get? k = some v) :
    k ∈ m.keys :=
  m.mem_keys_iff.mpr ⟨v, h⟩

theorem keys_insert_of_mem {m : OrderedMap κ β} {k : κ} (h : k ∈ m.keys) (v : β) :
    (m.insert k v).keys = m.keys := by
  rw [keys_insert, if_pos h]

theorem keys_insert_of_not_mem {m : OrderedMap κ β} {k : κ} (h : k ∉ m.keys) (v : β) :
    (m.insert k v).keys = m.keys ++ [k] := by
  rw [keys_insert, if_neg h]

theorem keys_erase (m : OrderedMap κ β) (k : κ) :
    (m.erase k).keys = m.keys.filter (fun a => a ≠ k) := by
  simp only [keys, erase, Entries.erase, List.filter_map]
  rfl

theorem mem_keys_insert (m : OrderedMap κ β) (k k' : κ) (v : β) :
    k' ∈ (m.insert k v).keys ↔ k' = k ∨ k' ∈ m.keys := by
  rw [keys_insert]
  split
  · next h => exact ⟨Or.inr, fun hm => hm.elim (fun he => he ▸ h) id⟩
  · simp [or_comm]

theorem keys_modify (m : OrderedMap κ β) (k : κ) (f : β → β) : (m.modify k f).keys = m.keys := by
  unfold modify
  cases h : m.get? k with
  | none => rfl
  | some v => exact keys_insert_of_mem (mem_keys_of_get? h) (f v)

/-- A map is its keys in their order, each with its value. -/
theorem entries_eq_filterMap (m : OrderedMap κ β) :
    m.entries = m.keys.filterMap (fun k => (m.get? k).map (fun v => (k, v))) := by
  have hg : ∀ e ∈ m.entries, (m.get? e.1).map (fun v => (e.1, v)) = some e := by
    intro e he
    have hv : m.get? e.1 = some e.2 := mem_entries_iff.mp he
    simp [hv]
  rw [keys, List.filterMap_map, Function.comp_def, List.filterMap_congr hg, List.filterMap_some]

theorem filterMap_keys (m : OrderedMap κ β) : m.keys.filterMap m.get? = m.values := by
  have hg : ∀ e ∈ m.entries, m.get? e.1 = some e.2 := fun e he => mem_entries_iff.mp he
  rw [keys, values, List.filterMap_map, Function.comp_def, List.filterMap_congr hg,
    List.filterMap_eq_map']

theorem mem_values_iff (m : OrderedMap κ β) {v : β} : v ∈ m.values ↔ ∃ k, m.get? k = some v := by
  rw [← filterMap_keys, List.mem_filterMap]
  exact ⟨fun ⟨k, _, hk⟩ => ⟨k, hk⟩, fun ⟨k, hk⟩ => ⟨k, mem_keys_of_get? hk, hk⟩⟩

/-- Maps are equal that list the same keys in the same order with the same values. -/
theorem ext_get? {m n : OrderedMap κ β} (hk : m.keys = n.keys)
    (hg : ∀ k, m.get? k = n.get? k) : m = n := by
  have he : m.entries = n.entries := by
    rw [entries_eq_filterMap m, entries_eq_filterMap n, hk]
    simp only [hg]
  cases m
  cases n
  simp only [mk.injEq]
  exact he

/-- Two maps are equal that list their keys in the order of a third and hold the same values. -/
theorem ext_sublist {m n : OrderedMap κ β} {ks : List κ} (hks : ks.Nodup)
    (hm : m.keys.Sublist ks) (hn : n.keys.Sublist ks) (hg : ∀ k, m.get? k = n.get? k) :
    m = n := by
  have hk : ∀ k, k ∈ m.keys ↔ k ∈ n.keys := by
    intro k
    rw [mem_keys_iff, mem_keys_iff, hg k]
  refine ext_get? ?_ hg
  rw [sublist_eq_filter hks hm, sublist_eq_filter hks hn]
  simp only [hk]

theorem insert_eq_self {m : OrderedMap κ β} {k : κ} {v : β} (h : m.get? k = some v) :
    m.insert k v = m := by
  refine ext_get? (keys_insert_of_mem (mem_keys_of_get? h) v) ?_
  intro k'
  rw [get?_insert]
  split
  · next he => rw [he, h]
  · rfl

theorem entries_insert_of_not_mem {m : OrderedMap κ β} {k : κ} (h : k ∉ m.keys) (v : β) :
    (m.insert k v).entries = m.entries ++ [(k, v)] :=
  Entries.insert_of_not_mem h v

/-- New keys are added behind the others, in their order. -/
theorem entries_foldl_insert (m : OrderedMap κ β) {entries : List (κ × β)}
    (h : (m.keys ++ entries.map Prod.fst).Nodup) :
    (entries.foldl (fun m e => m.insert e.1 e.2) m).entries = m.entries ++ entries := by
  induction entries generalizing m with
  | nil => simp
  | cons e entries ih =>
    obtain ⟨k, v⟩ := e
    rw [List.map_cons, List.append_cons] at h
    have hk : k ∉ m.keys := List.disjoint_right.mp
      (List.disjoint_of_nodup_append (List.nodup_append.mp h).1) (List.mem_singleton_self k)
    rw [List.foldl_cons, ih (m.insert k v) (by rwa [keys_insert_of_not_mem hk]),
      entries_insert_of_not_mem hk, ← List.append_cons]

/-- A map is what its entries make. -/
theorem ofList_entries (m : OrderedMap κ β) : ofList m.entries = m := by
  have he : (ofList m.entries).entries = m.entries :=
    entries_foldl_insert empty (by simpa [empty, keys] using m.nodup)
  cases m
  exact (mk.injEq _ _ _ _).mpr he

end OrderedMap

namespace OrderedSet

variable {α : Type} [DecidableEq α]

/-- New elements are added behind the others, in their order. -/
theorem elems_foldl_insert_of_nodup (s : OrderedSet α) {elems : List α}
    (h : (s.elems ++ elems).Nodup) : (elems.foldl insert s).elems = s.elems ++ elems := by
  induction elems generalizing s with
  | nil => simp
  | cons a elems ih =>
    rw [List.append_cons] at h
    have ha : a ∉ s.elems := List.disjoint_right.mp
      (List.disjoint_of_nodup_append (List.nodup_append.mp h).1) (List.mem_singleton_self a)
    have hs : (s.insert a).elems = s.elems ++ [a] := by rw [insert, dif_neg ha]
    rw [List.foldl_cons, ih (s.insert a) (by rwa [hs]), hs, ← List.append_cons]

/-- A set is what its elements make. -/
theorem ofList_elems (s : OrderedSet α) : ofList s.elems = s := by
  have he : (ofList s.elems).elems = s.elems := elems_foldl_insert_of_nodup empty s.nodup
  cases s
  exact (mk.injEq _ _ _ _).mpr he

end OrderedSet

end PropertyGraph
