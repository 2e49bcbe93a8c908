import PropertyGraph.Seq

namespace PropertyGraph.Seq

variable {ε α : Type} {e : ε} {s rest inner : Seq ε α} {items more : List α} {a : α}

/-- The items that the sequence produces before it ends. -/
inductive Yields (e : ε) : Seq ε α → List α → Prop
  | done {s : Seq ε α} (h : s.step e = .done) : Yields e s []
  | skip {s rest : Seq ε α} {items : List α} (h : s.step e = .skip rest)
    (hr : Yields e rest items) : Yields e s items
  | yield {s rest : Seq ε α} {a : α} {items : List α} (h : s.step e = .yield a rest)
    (hr : Yields e rest items) : Yields e s (a :: items)

section Combinators

theorem yields_ofList (e : ε) (items : List α) : Yields e (ofList items) items := by
  have hdrop : ∀ n, Yields e (source (fun n => items[n]?) n) (items.drop n) := by
    intro n
    generalize hl : items.length - n = left
    induction left generalizing n with
    | zero =>
      have hle : items.length ≤ n := by omega
      rw [List.drop_eq_nil_of_le hle]
      exact .done (by simp [step, List.getElem?_eq_none hle])
    | succ left ih =>
      have hlt : n < items.length := by omega
      rw [List.drop_eq_getElem_cons hlt]
      exact .yield (by simp [step, List.getElem?_eq_getElem hlt]) (ih (n + 1) (by omega))
  exact hdrop 0

theorem Yields.filterMap (h : Yields e s items) (f : ε → α → Option α) :
    Yields e (filterMap f s) (items.filterMap (f e)) := by
  induction h with
  | done h => exact .done (by simp [step, h])
  | skip h _ ih => exact .skip (by simp only [step, h]) ih
  | @yield s rest a items h _ ih =>
    cases hf : f e a with
    | none =>
      rw [List.filterMap_cons_none hf]
      exact .skip (by simp only [step, h, hf]) ih
    | some b =>
      rw [List.filterMap_cons_some hf]
      exact .yield (by simp only [step, h, hf]) ih

theorem Yields.filter (h : Yields e s items) (keep : ε → α → Bool) :
    Yields e (filter keep s) (items.filter (keep e)) := by
  rw [← List.filterMap_eq_filter]
  exact h.filterMap (fun e a => if keep e a then some a else none)

theorem Yields.limit (h : Yields e s items) (n : Nat) :
    Yields e (limit n s) (items.take n) := by
  cases n with
  | zero => exact .done (by simp [step])
  | succ n =>
    induction h generalizing n with
    | done h => exact .done (by simp [step, h])
    | skip h _ ih => exact .skip (by simp only [step, h]) (ih n)
    | @yield s rest a items h hr ih =>
      have hs : (Seq.limit (n + 1) s).step e = .yield a (Seq.limit n rest) := by
        simp only [step, h]
      rw [List.take_succ_cons]
      cases n with
      | zero => exact .yield hs (.done (by simp [step]))
      | succ n => exact .yield hs (ih n)

/-- The items that are the same neither as a kept one nor as one before them. -/
def fresh (same : α → α → Bool) (kept : List α) : List α → List α
  | [] => []
  | a :: rest =>
    if kept.any (same a) then fresh same kept rest else a :: fresh same (a :: kept) rest

theorem Yields.distinct (h : Yields e s items) (same : α → α → Bool) (kept : List α) :
    Yields e (distinct same kept s) (fresh same kept items) := by
  induction h generalizing kept with
  | done h => exact .done (by simp [step, h])
  | skip h _ ih => exact .skip (by simp only [step, h]) (ih kept)
  | @yield s rest a items h _ ih =>
    unfold fresh
    split
    · next hk => exact .skip (by simp only [step, h, if_pos hk]) (ih kept)
    · next hk => exact .yield (by simp only [step, h, if_neg hk]) (ih (a :: kept))

/-- Inside an inner sequence what that yields comes first. -/
theorem Yields.inside (h : Yields e inner items) {expand : ε → α → Seq ε α}
    (hr : Yields e (flatten expand rest) more) :
    Yields e (inside inner expand rest) (items ++ more) := by
  induction h with
  | done h => exact .skip (by simp only [step, h]) hr
  | skip h _ ih => exact .skip (by simp only [step, h]) ih
  | yield h _ ih => exact .yield (by simp only [step, h]) ih

theorem Yields.flatten (h : Yields e s items) {expand : ε → α → Seq ε α} {f : α → List α}
    (hf : ∀ a ∈ items, Yields e (expand e a) (f a)) :
    Yields e (flatten expand s) (items.flatMap f) := by
  induction h with
  | done h => exact .done (by simp [step, h])
  | skip h _ ih => exact .skip (by simp only [step, h]) (ih hf)
  | @yield s rest a items h _ ih =>
    have hrest := ih (fun b hb => hf b (List.mem_cons_of_mem _ hb))
    rw [List.flatMap_cons]
    exact .skip (by simp only [step, h]) ((hf a List.mem_cons_self).inside hrest)

end Combinators

section Driving

/-- Enough steps lead to the end of a sequence that yields nothing. -/
theorem Yields.next_nil (h : Yields e s []) :
    ∃ rest, Yields e rest []
      ∧ ∃ bound, ∀ steps, bound ≤ steps → s.next e steps = .ended rest := by
  generalize hi : ([] : List α) = items at h
  induction h with
  | @done s h =>
    refine ⟨s, .done h, 1, fun steps hs => ?_⟩
    obtain ⟨n, rfl⟩ := Nat.exists_eq_add_of_le' hs
    simp only [next, h]
  | skip h _ ih =>
    obtain ⟨rest, hr, bound, hb⟩ := ih hi
    refine ⟨rest, hr, bound + 1, fun steps hs => ?_⟩
    obtain ⟨n, rfl⟩ := Nat.exists_eq_add_of_le' (Nat.le_of_add_left_le hs)
    simp only [next, h]
    exact hb n (by omega)
  | yield h _ _ => cases hi

/-- Enough steps lead to the first item. -/
theorem Yields.next_cons (h : Yields e s (a :: items)) :
    ∃ rest, Yields e rest items
      ∧ ∃ bound, ∀ steps, bound ≤ steps → s.next e steps = .item a rest := by
  generalize hi : a :: items = all at h
  induction h with
  | done h => cases hi
  | skip h _ ih =>
    obtain ⟨rest, hr, bound, hb⟩ := ih hi
    refine ⟨rest, hr, bound + 1, fun steps hs => ?_⟩
    obtain ⟨n, rfl⟩ := Nat.exists_eq_add_of_le' (Nat.le_of_add_left_le hs)
    simp only [next, h]
    exact hb n (by omega)
  | @yield s rest b items' h hr _ =>
    obtain ⟨rfl, rfl⟩ := List.cons.inj hi
    refine ⟨rest, hr, 1, fun steps hs => ?_⟩
    obtain ⟨n, rfl⟩ := Nat.exists_eq_add_of_le' hs
    simp only [next, h]

end Driving

end PropertyGraph.Seq
