namespace PropertyGraph

namespace Entries

variable {κ β γ : Type} [DecidableEq κ]

def get? (k : κ) : List (κ × β) → Option β
  | [] => none
  | (a, b) :: rest => if a = k then some b else get? k rest

/-- A key that is present keeps its place; a new one goes to the end. -/
def insert (k : κ) (v : β) : List (κ × β) → List (κ × β)
  | [] => [(k, v)]
  | (a, b) :: rest => if a = k then (a, v) :: rest else (a, b) :: insert k v rest

def erase (k : κ) (entries : List (κ × β)) : List (κ × β) :=
  entries.filter (fun e => e.1 ≠ k)

theorem keys_insert (k : κ) (v : β) (entries : List (κ × β)) :
    (insert k v entries).map Prod.fst =
      if k ∈ entries.map Prod.fst then entries.map Prod.fst else entries.map Prod.fst ++ [k] := by
  induction entries with
  | nil => simp [insert]
  | cons e rest ih =>
    obtain ⟨a, b⟩ := e
    by_cases h : a = k
    · simp [insert, h]
    · have h' : k ≠ a := Ne.symm h
      simp only [insert, h, ↓reduceIte, List.map_cons, ih, List.mem_cons, h', false_or]
      split <;> simp

theorem nodup_insert {entries : List (κ × β)} (h : (entries.map Prod.fst).Nodup) (k : κ) (v : β) :
    ((insert k v entries).map Prod.fst).Nodup := by
  rw [keys_insert]
  split
  · exact h
  · next hk =>
    refine List.nodup_append.mpr ⟨h, by simp, ?_⟩
    intro a ha b hb he
    rw [List.mem_singleton.mp hb] at he
    exact hk (he ▸ ha)

theorem nodup_erase {entries : List (κ × β)} (h : (entries.map Prod.fst).Nodup) (k : κ) :
    ((erase k entries).map Prod.fst).Nodup :=
  h.sublist (List.Sublist.map _ List.filter_sublist)

theorem get?_insert_self (k : κ) (v : β) (entries : List (κ × β)) :
    get? k (insert k v entries) = some v := by
  induction entries with
  | nil => simp [insert, get?]
  | cons e rest ih =>
    obtain ⟨a, b⟩ := e
    by_cases h : a = k <;> simp [insert, get?, h, ih]

theorem get?_insert_of_ne {k k' : κ} (hne : k' ≠ k) (v : β) (entries : List (κ × β)) :
    get? k' (insert k v entries) = get? k' entries := by
  induction entries with
  | nil => simp [insert, get?, Ne.symm hne]
  | cons e rest ih =>
    obtain ⟨a, b⟩ := e
    by_cases h : a = k
    · simp [insert, get?, h, Ne.symm hne]
    · simp [insert, get?, h, ih]

theorem get?_erase_self (k : κ) (entries : List (κ × β)) : get? k (erase k entries) = none := by
  induction entries with
  | nil => rfl
  | cons e rest ih =>
    obtain ⟨a, b⟩ := e
    by_cases h : a = k <;> simp_all [erase, get?]

theorem get?_erase_of_ne {k k' : κ} (hne : k' ≠ k) (entries : List (κ × β)) :
    get? k' (erase k entries) = get? k' entries := by
  induction entries with
  | nil => rfl
  | cons e rest ih =>
    obtain ⟨a, b⟩ := e
    by_cases h : a = k
    · subst h
      have h' : ¬ a = k' := fun he => hne he.symm
      simpa [erase, get?, h'] using ih
    · by_cases h' : a = k'
      · simp [erase, get?, h', hne]
      · simpa [erase, get?, h, h'] using ih

theorem get?_eq_none_iff {k : κ} {entries : List (κ × β)} :
    get? k entries = none ↔ k ∉ entries.map Prod.fst := by
  induction entries with
  | nil => simp [get?]
  | cons e rest ih =>
    obtain ⟨a, b⟩ := e
    by_cases h : a = k
    · simp [get?, h]
    · simp only [get?, h, ↓reduceIte, ih, List.map_cons, List.mem_cons, not_or]
      exact ⟨fun hr => ⟨fun he => h he.symm, hr⟩, And.right⟩

end Entries

/-- A finite map that remembers the order in which its keys first arrived. -/
structure OrderedMap (κ β : Type) where
  entries : List (κ × β)
  nodup : (entries.map Prod.fst).Nodup
deriving DecidableEq

namespace OrderedMap

variable {κ β : Type}

def empty : OrderedMap κ β := ⟨[], List.nodup_nil⟩

instance : Inhabited (OrderedMap κ β) := ⟨empty⟩

def keys (m : OrderedMap κ β) : List κ := m.entries.map Prod.fst

def values (m : OrderedMap κ β) : List β := m.entries.map Prod.snd

def size (m : OrderedMap κ β) : Nat := m.entries.length

variable [DecidableEq κ]

def get? (m : OrderedMap κ β) (k : κ) : Option β := Entries.get? k m.entries

def contains (m : OrderedMap κ β) (k : κ) : Bool := (m.get? k).isSome

def insert (m : OrderedMap κ β) (k : κ) (v : β) : OrderedMap κ β :=
  ⟨Entries.insert k v m.entries, Entries.nodup_insert m.nodup k v⟩

/-- Removal keeps the order of the other keys. -/
def erase (m : OrderedMap κ β) (k : κ) : OrderedMap κ β :=
  ⟨Entries.erase k m.entries, Entries.nodup_erase m.nodup k⟩

def modify (m : OrderedMap κ β) (k : κ) (f : β → β) : OrderedMap κ β :=
  match m.get? k with
  | none => m
  | some v => m.insert k (f v)

/-- Of repeated keys the last value counts, in the place of the first. -/
def ofList (entries : List (κ × β)) : OrderedMap κ β :=
  entries.foldl (fun m e => m.insert e.1 e.2) empty

theorem get?_insert_self (m : OrderedMap κ β) (k : κ) (v : β) : (m.insert k v).get? k = some v :=
  Entries.get?_insert_self k v m.entries

theorem get?_insert_of_ne (m : OrderedMap κ β) {k k' : κ} (h : k' ≠ k) (v : β) :
    (m.insert k v).get? k' = m.get? k' :=
  Entries.get?_insert_of_ne h v m.entries

theorem get?_erase_self (m : OrderedMap κ β) (k : κ) : (m.erase k).get? k = none :=
  Entries.get?_erase_self k m.entries

theorem get?_erase_of_ne (m : OrderedMap κ β) {k k' : κ} (h : k' ≠ k) :
    (m.erase k).get? k' = m.get? k' :=
  Entries.get?_erase_of_ne h m.entries

theorem keys_insert (m : OrderedMap κ β) (k : κ) (v : β) :
    (m.insert k v).keys = if k ∈ m.keys then m.keys else m.keys ++ [k] :=
  Entries.keys_insert k v m.entries

theorem get?_eq_none_iff (m : OrderedMap κ β) {k : κ} : m.get? k = none ↔ k ∉ m.keys :=
  Entries.get?_eq_none_iff

end OrderedMap

end PropertyGraph
