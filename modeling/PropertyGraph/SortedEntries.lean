import PropertyGraph.OrderedMap

namespace PropertyGraph.SortedEntries

variable {β : Type}

/-- Puts a value under its key into entries listed by ascending key. -/
def insert (k : String) (v : β) : List (String × β) → List (String × β)
  | [] => [(k, v)]
  | (a, b) :: rest =>
    if a = k then (k, v) :: rest
    else if k < a then (k, v) :: (a, b) :: rest
    else (a, b) :: insert k v rest

/-- Entries by ascending key; of repeated keys the last value counts. -/
def ofList (entries : List (String × β)) : List (String × β) :=
  entries.foldl (fun sorted e => insert e.1 e.2 sorted) []

theorem get?_insert_self (k : String) (v : β) (entries : List (String × β)) :
    Entries.get? k (insert k v entries) = some v := by
  induction entries with
  | nil => simp [insert, Entries.get?]
  | cons e rest ih =>
    obtain ⟨a, b⟩ := e
    by_cases h : a = k
    · simp [insert, Entries.get?, h]
    · by_cases hlt : k < a <;> simp [insert, Entries.get?, h, hlt, ih]

theorem get?_insert_of_ne {k k' : String} (hne : k' ≠ k) (v : β) (entries : List (String × β)) :
    Entries.get? k' (insert k v entries) = Entries.get? k' entries := by
  induction entries with
  | nil => simp [insert, Entries.get?, Ne.symm hne]
  | cons e rest ih =>
    obtain ⟨a, b⟩ := e
    by_cases h : a = k
    · simp [insert, Entries.get?, h, Ne.symm hne]
    · by_cases hlt : k < a
      · simp [insert, Entries.get?, h, hlt, Ne.symm hne]
      · simp [insert, Entries.get?, h, hlt, ih]

end PropertyGraph.SortedEntries
