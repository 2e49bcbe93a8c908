import Mathlib.Data.List.Induction
import Mathlib.Data.String.Basic
import PropertyGraph.Proofs.OrderedMap
import PropertyGraph.SortedEntries

namespace PropertyGraph

namespace Entries

variable {β γ : Type}

/-- The entries with each value replaced. -/
def mapValues (f : β → γ) (entries : List (String × β)) : List (String × γ) :=
  entries.map (fun e => (e.1, f e.2))

theorem keys_mapValues (f : β → γ) (entries : List (String × β)) :
    (mapValues f entries).map Prod.fst = entries.map Prod.fst := by
  rw [mapValues, List.map_map]
  rfl

theorem get?_mapValues (f : β → γ) (entries : List (String × β)) (k : String) :
    get? k (mapValues f entries) = (get? k entries).map f := by
  induction entries with
  | nil => rfl
  | cons e entries ih =>
    simp only [mapValues, List.map_cons, get?] at ih ⊢
    split
    · rfl
    · exact ih

theorem mem_mapValues {f : β → γ} {entries : List (String × β)} {e : String × γ} :
    e ∈ mapValues f entries ↔ ∃ e' ∈ entries, (e'.1, f e'.2) = e := List.mem_map

theorem mapValues_mapValues {δ : Type} (g : γ → δ) (f : β → γ) (entries : List (String × β)) :
    mapValues g (mapValues f entries) = mapValues (g ∘ f) entries := List.map_map

/-- Replacing each value by itself changes nothing. -/
theorem mapValues_eq_self {f : β → β} {entries : List (String × β)}
    (h : ∀ e ∈ entries, f e.2 = e.2) : mapValues f entries = entries := by
  have he : ∀ e ∈ entries, (e.1, f e.2) = id e := fun e he => by rw [h e he]; rfl
  rw [mapValues, List.map_congr_left he, List.map_id]

end Entries

namespace SortedEntries

variable {β γ : Type} {entries others : List (String × β)} {k : String} {v : β}

def Ascending (entries : List (String × β)) : Prop := entries.Pairwise (fun a b => a.1 < b.1)

theorem Ascending.mapValues (h : Ascending entries) (f : β → γ) :
    Ascending (Entries.mapValues f entries) :=
  List.pairwise_map.mpr h

theorem Ascending.nodup (h : Ascending entries) : (entries.map Prod.fst).Nodup :=
  List.pairwise_map.mpr (h.imp (fun hlt => ne_of_lt hlt))

theorem mem_insert {e : String × β} (h : e ∈ insert k v entries) :
    e = (k, v) ∨ e ∈ entries := by
  induction entries with
  | nil => exact Or.inl (List.mem_singleton.mp h)
  | cons e' rest ih =>
    unfold insert at h
    split at h
    · exact (List.mem_cons.mp h).imp id (List.mem_cons_of_mem _)
    · split at h
      · exact List.mem_cons.mp h
      · rcases List.mem_cons.mp h with he | hm
        · exact Or.inr (he ▸ List.mem_cons_self)
        · exact (ih hm).imp id (List.mem_cons_of_mem _)

theorem Ascending.insert (h : Ascending entries) (k : String) (v : β) :
    Ascending (insert k v entries) := by
  induction entries with
  | nil => exact List.pairwise_singleton _ _
  | cons e rest ih =>
    obtain ⟨a, b⟩ := e
    obtain ⟨hfirst, hrest⟩ := List.pairwise_cons.mp h
    unfold SortedEntries.insert
    split
    · next he => exact List.pairwise_cons.mpr ⟨fun e hm => he ▸ hfirst e hm, hrest⟩
    · next hne =>
      split
      · next hlt =>
        refine List.pairwise_cons.mpr ⟨fun e hm => ?_, h⟩
        rcases List.mem_cons.mp hm with rfl | hm
        · exact hlt
        · exact lt_trans hlt (hfirst e hm)
      · next hle =>
        refine List.pairwise_cons.mpr ⟨fun e hm => ?_, ih hrest⟩
        rcases mem_insert hm with rfl | hm
        · exact lt_of_le_of_ne (not_lt.mp hle) hne
        · exact hfirst e hm

theorem ofList_concat (entries : List (String × β)) (e : String × β) :
    ofList (entries ++ [e]) = insert e.1 e.2 (ofList entries) := by
  simp only [ofList, List.foldl_append, List.foldl_cons, List.foldl_nil]

theorem ascending_ofList (entries : List (String × β)) : Ascending (ofList entries) := by
  induction entries using List.reverseRecOn with
  | nil => exact List.Pairwise.nil
  | append_singleton entries e ih =>
    rw [ofList_concat]
    exact ih.insert e.1 e.2

theorem mem_of_mem_ofList {e : String × β} (h : e ∈ ofList entries) : e ∈ entries := by
  induction entries using List.reverseRecOn with
  | nil => exact h
  | append_singleton entries e' ih =>
    rw [ofList_concat] at h
    rcases mem_insert h with rfl | h
    · exact List.mem_append_right _ List.mem_cons_self
    · exact List.mem_append_left _ (ih h)

/-- One entry for each name, whose value depends on the name alone. Repeated names do not show. -/
theorem get?_ofList_map (names : List String) (f : String → β) (key : String) :
    Entries.get? key (ofList (names.map (fun name => (name, f name)))) =
      if key ∈ names then some (f key) else none := by
  induction names using List.reverseRecOn with
  | nil => rfl
  | append_singleton names name ih =>
    rw [List.map_append, List.map_singleton, ofList_concat]
    by_cases hk : key = name
    · rw [hk, get?_insert_self, if_pos (by simp)]
    · rw [get?_insert_of_ne hk, ih]
      simp [hk]

theorem get?_concat (h : ((entries ++ [(k, v)]).map Prod.fst).Nodup) (k' : String) :
    Entries.get? k' (entries ++ [(k, v)]) =
      if k' = k then some v else Entries.get? k' entries := by
  induction entries with
  | nil => simp [Entries.get?, eq_comm]
  | cons e rest ih =>
    obtain ⟨a, b⟩ := e
    simp only [List.cons_append, List.map_cons, List.nodup_cons] at h
    have hne : a ≠ k := by
      rintro rfl
      exact h.1 (by simp)
    simp only [List.cons_append, Entries.get?, ih h.2]
    by_cases ha : a = k'
    · have hk : k' ≠ k := fun hk => hne (ha.trans hk)
      simp [ha, hk]
    · simp [ha]

/-- Sorting keeps the lookups of entries with distinct keys. -/
theorem get?_ofList (h : (entries.map Prod.fst).Nodup) (k : String) :
    Entries.get? k (ofList entries) = Entries.get? k entries := by
  induction entries using List.reverseRecOn with
  | nil => rfl
  | append_singleton entries e ih =>
    obtain ⟨a, b⟩ := e
    have hs : (entries.map Prod.fst).Nodup :=
      h.sublist ((List.sublist_append_left entries _).map _)
    rw [ofList_concat, get?_concat h]
    split
    · next he => rw [he, get?_insert_self]
    · next hne => rw [get?_insert_of_ne hne, ih hs]

theorem Ascending.get?_eq_none (h : Ascending ((k, v) :: entries)) {k' : String} (hlt : k' < k) :
    Entries.get? k' ((k, v) :: entries) = none := by
  rw [Entries.get?_eq_none_iff]
  intro hm
  obtain ⟨e, he, rfl⟩ := List.mem_map.mp hm
  rcases List.mem_cons.mp he with rfl | he
  · exact lt_irrefl _ hlt
  · exact lt_asymm hlt ((List.pairwise_cons.mp h).1 e he)

/-- Ascending entries are determined by their lookups. -/
theorem Ascending.ext (h : Ascending entries) (h' : Ascending others)
    (hg : ∀ k, Entries.get? k entries = Entries.get? k others) : entries = others := by
  induction entries generalizing others with
  | nil =>
    cases others with
    | nil => rfl
    | cons e rest => simpa [Entries.get?] using hg e.1
  | cons e rest ih =>
    obtain ⟨a, b⟩ := e
    cases others with
    | nil => simpa [Entries.get?] using hg a
    | cons e' rest' =>
      obtain ⟨a', b'⟩ := e'
      obtain rfl : a = a' := by
        rcases lt_trichotomy a a' with hlt | he | hlt
        · have hga := hg a
          rw [h'.get?_eq_none hlt] at hga
          simp [Entries.get?] at hga
        · exact he
        · have hga := hg a'
          rw [h.get?_eq_none hlt] at hga
          simp [Entries.get?] at hga
      obtain rfl : b = b' := by simpa [Entries.get?] using hg a
      obtain ⟨hfirst, hrest⟩ := List.pairwise_cons.mp h
      obtain ⟨hfirst', hrest'⟩ := List.pairwise_cons.mp h'
      rw [ih hrest hrest' (fun k => ?_)]
      by_cases hk : a = k
      · have hnone : ∀ l : List (String × β), (∀ e ∈ l, a < e.1) → Entries.get? k l = none := by
          intro l hl
          rw [Entries.get?_eq_none_iff, ← hk]
          intro hm
          obtain ⟨e, he, hea⟩ := List.mem_map.mp hm
          exact lt_irrefl a (hea ▸ hl e he)
        rw [hnone rest hfirst, hnone rest' hfirst']
      · simpa [Entries.get?, hk] using hg k

theorem Ascending.ofList_eq (h : Ascending entries) : ofList entries = entries :=
  (ascending_ofList entries).ext h (get?_ofList h.nodup)

/-- The order of entries with distinct keys does not matter. -/
theorem ofList_eq_of_get? (h : (entries.map Prod.fst).Nodup) (h' : Ascending others)
    (hg : ∀ k, Entries.get? k entries = Entries.get? k others) : ofList entries = others :=
  (ascending_ofList entries).ext h' (fun k => (get?_ofList h k).trans (hg k))

/-- Entries without repeated keys are sorted to the same list in whatever order they come. -/
theorem ofList_eq_of_perm (hp : entries.Perm others) (h : (entries.map Prod.fst).Nodup) :
    ofList entries = ofList others := by
  have h' : (others.map Prod.fst).Nodup := (hp.map Prod.fst).nodup_iff.mp h
  refine ofList_eq_of_get? h (ascending_ofList others) (fun k => ?_)
  rw [get?_ofList h']
  cases hk : Entries.get? k entries with
  | some v =>
    exact (Entries.get?_eq_some_of_mem h' (hp.mem_iff.mp (Entries.mem_of_get?_eq_some hk))).symm
  | none =>
    rw [Entries.get?_eq_none_iff, (hp.map Prod.fst).mem_iff, ← Entries.get?_eq_none_iff] at hk
    exact hk.symm

end SortedEntries

end PropertyGraph
