namespace PropertyGraph

/-- A finite set that remembers the order in which its elements first arrived. -/
structure OrderedSet (α : Type) where
  elems : List α
  nodup : elems.Nodup
deriving DecidableEq

namespace OrderedSet

variable {α : Type}

def empty : OrderedSet α := ⟨[], List.nodup_nil⟩

instance : Inhabited (OrderedSet α) := ⟨empty⟩

def isEmpty (s : OrderedSet α) : Bool := s.elems.isEmpty

variable [DecidableEq α]

def contains (s : OrderedSet α) (a : α) : Bool := decide (a ∈ s.elems)

/-- An element that is present keeps its place; a new one goes to the end. -/
def insert (s : OrderedSet α) (a : α) : OrderedSet α :=
  if h : a ∈ s.elems then s
  else ⟨s.elems ++ [a], by
    refine List.nodup_append.mpr ⟨s.nodup, by simp, ?_⟩
    intro b hb c hc he
    rw [List.mem_singleton.mp hc] at he
    exact h (he ▸ hb)⟩

def erase (s : OrderedSet α) (a : α) : OrderedSet α :=
  ⟨s.elems.filter (fun b => b ≠ a), s.nodup.filter _⟩

def ofList (elems : List α) : OrderedSet α := elems.foldl insert empty

theorem mem_insert (s : OrderedSet α) (a b : α) : b ∈ (s.insert a).elems ↔ b = a ∨ b ∈ s.elems := by
  unfold insert
  split
  · next h => exact ⟨Or.inr, fun hb => hb.elim (fun he => he ▸ h) id⟩
  · simp [or_comm]

theorem mem_erase (s : OrderedSet α) (a b : α) : b ∈ (s.erase a).elems ↔ b ∈ s.elems ∧ b ≠ a := by
  simp [erase]

end OrderedSet

end PropertyGraph
