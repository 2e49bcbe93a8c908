import PropertyGraph.Proofs.Sequence

namespace PropertyGraph

/-- What is known of a list: its first items, and whether there are no more. -/
structure Portion (α : Type) where
  items : List α
  whole : Bool

namespace Portion

variable {α : Type} {l l' m m' n : Portion α} {a : α}

def none : Portion α := ⟨[], false⟩

/-- The list that begins with an item and goes on like another. -/
def cons (a : α) (l : Portion α) : Portion α := ⟨a :: l.items, l.whole⟩

/-- The list that goes on with another where it ends. -/
def append (l m : Portion α) : Portion α := if l.whole then ⟨l.items ++ m.items, m.whole⟩ else l

/-- A list operation that makes no more of the end of the list than of its items. -/
def onItems (f : List α → List α) (l : Portion α) : Portion α := ⟨f l.items, l.whole⟩

/-- The list up to a limit, which is all of it once the limit is reached. -/
def cut (n : Nat) (l : Portion α) : Portion α :=
  ⟨l.items.take n, l.whole || decide (n ≤ l.items.length)⟩

/-- The lists that the items stand for, one after the other. -/
def flatten (f : α → Portion α) (l : Portion α) : Portion α :=
  l.items.foldr (fun a rest => (f a).append rest) ⟨[], l.whole⟩

/-- Of the same list, the second portion shows all that the first one shows. -/
inductive Within : Portion α → Portion α → Prop where
  | same (l : Portion α) : Within l l
  | more (items rest : List α) (whole : Bool) : Within ⟨items, false⟩ ⟨items ++ rest, whole⟩

theorem none_within (l : Portion α) : Portion.none.Within l := .more [] l.items l.whole

theorem Within.trans (hl : l.Within m) (hm : m.Within n) : l.Within n := by
  cases hl with
  | same => exact hm
  | more items rest whole =>
    generalize hr : Portion.mk (items ++ rest) whole = r at hm
    cases hm with
    | same =>
      subst hr
      exact .more items rest whole
    | more shown later whole' =>
      obtain ⟨rfl, rfl⟩ := Portion.mk.inj hr
      rw [List.append_assoc]
      exact .more items _ whole'

theorem Within.prefix_items (h : l.Within m) : l.items <+: m.items := by
  cases h with
  | same => exact List.prefix_rfl
  | more items rest whole => exact List.prefix_append items rest

theorem Within.eq_of_whole (h : l.Within m) (hw : l.whole = true) : m = l := by
  cases h with
  | same => rfl
  | more items rest whole => cases hw

theorem Within.cons (h : l.Within m) (a : α) : (cons a l).Within (cons a m) := by
  cases h with
  | same => exact .same _
  | more items rest whole => exact .more (a :: items) rest whole

theorem Within.onItems {f : List α → List α} (hf : ∀ items rest, f items <+: f (items ++ rest))
    (h : l.Within m) : (l.onItems f).Within (m.onItems f) := by
  cases h with
  | same => exact .same _
  | more items rest whole =>
    obtain ⟨later, hlater⟩ := hf items rest
    rw [Portion.onItems, Portion.onItems, ← hlater]
    exact .more (f items) later whole

theorem cut_zero (l : Portion α) : l.cut 0 = ⟨[], true⟩ := by simp [cut]

theorem cut_cons (n : Nat) (a : α) (l : Portion α) : (cons a l).cut (n + 1) = cons a (l.cut n) := by
  simp [cut, cons]

theorem Within.cut (h : l.Within m) (n : Nat) : (l.cut n).Within (m.cut n) := by
  cases h with
  | same => exact .same _
  | more items rest whole =>
    rw [Portion.cut, Portion.cut]
    by_cases hn : n ≤ items.length
    · have hn' : n ≤ (items ++ rest).length := by
        rw [List.length_append]
        omega
      rw [List.take_append_of_le_length hn, decide_eq_true hn, decide_eq_true hn',
        Bool.or_true, Bool.or_true]
      exact .same _
    · rw [decide_eq_false hn, List.take_append]
      exact .more _ _ _

theorem append_of_whole (hw : l.whole = true) (m : Portion α) :
    l.append m = ⟨l.items ++ m.items, m.whole⟩ := if_pos hw

theorem append_of_not_whole (hw : l.whole = false) (m : Portion α) : l.append m = l :=
  if_neg (by rw [hw]; exact Bool.false_ne_true)

theorem cons_append (a : α) (l m : Portion α) : (cons a l).append m = cons a (l.append m) := by
  cases hw : l.whole with
  | true => rw [append_of_whole hw, append_of_whole (l := cons a l) hw]; rfl
  | false => rw [append_of_not_whole hw, append_of_not_whole (l := cons a l) hw]

theorem Within.append (hl : l.Within l') (hm : m.Within m') :
    (l.append m).Within (l'.append m') := by
  cases hl with
  | same =>
    cases hw : l.whole with
    | false =>
      rw [append_of_not_whole hw, append_of_not_whole hw]
      exact .same l
    | true =>
      rw [append_of_whole hw, append_of_whole hw]
      cases hm with
      | same => exact .same _
      | more items rest whole =>
        rw [← List.append_assoc]
        exact .more _ rest whole
  | more items rest whole =>
    rw [append_of_not_whole rfl]
    cases whole with
    | false =>
      rw [append_of_not_whole rfl]
      exact .more items rest false
    | true =>
      rw [append_of_whole rfl, List.append_assoc]
      exact .more items _ _

theorem flatten_cons (f : α → Portion α) (a : α) (l : Portion α) :
    (cons a l).flatten f = (f a).append (l.flatten f) := rfl

theorem Within.flatten {f g : α → Portion α} (hf : ∀ a, (f a).Within (g a))
    (hl : l.Within l') : (l.flatten f).Within (l'.flatten g) := by
  have hfold : ∀ (items : List α) {base base' : Portion α}, base.Within base' →
      (items.foldr (fun a rest => (f a).append rest) base).Within
        (items.foldr (fun a rest => (g a).append rest) base') := by
    intro items base base' hbase
    induction items with
    | nil => exact hbase
    | cons a items ih => exact (hf a).append ih
  cases hl with
  | same => exact hfold _ (.same _)
  | more items rest whole =>
    unfold Portion.flatten
    rw [List.foldr_append]
    exact hfold items (none_within _)

end Portion

namespace Seq

variable {ε α : Type} {e : ε} {s inner : Seq ε α} {items : List α} {a : α} {n n' : Nat}

/-- What some steps bring to light of what a sequence hands out. -/
def portion (e : ε) : Nat → Seq ε α → Portion α
  | 0, _ => .none
  | n + 1, s =>
    match s.step e with
    | .done => ⟨[], true⟩
    | .skip rest => rest.portion e n
    | .yield a rest => .cons a (rest.portion e n)

section Steps

variable {rest : Seq ε α}

theorem portion_of_done (h : s.step e = .done) (n : Nat) : s.portion e (n + 1) = ⟨[], true⟩ := by
  rw [portion, h]

theorem portion_of_skip (h : s.step e = .skip rest) (n : Nat) :
    s.portion e (n + 1) = rest.portion e n := by
  rw [portion, h]

theorem portion_of_yield (h : s.step e = .yield a rest) (n : Nat) :
    s.portion e (n + 1) = .cons a (rest.portion e n) := by
  rw [portion, h]

theorem portion_within_succ (e : ε) (n : Nat) (s : Seq ε α) :
    (s.portion e n).Within (s.portion e (n + 1)) := by
  induction n generalizing s with
  | zero => exact Portion.none_within _
  | succ n ih =>
    cases h : s.step e with
    | done =>
      rw [portion_of_done h, portion_of_done h]
      exact .same _
    | skip rest =>
      rw [portion_of_skip h, portion_of_skip h]
      exact ih rest
    | yield a rest =>
      rw [portion_of_yield h, portion_of_yield h]
      exact (ih rest).cons a

theorem portion_within (s : Seq ε α) (h : n ≤ n') : (s.portion e n).Within (s.portion e n') := by
  induction h with
  | refl => exact .same _
  | step _ ih => exact ih.trans (portion_within_succ e _ s)

/-- A sequence ends when some steps have brought all of it to light. -/
theorem yields_iff_portion : Yields e s items ↔ ∃ n, s.portion e n = ⟨items, true⟩ := by
  constructor
  · intro h
    induction h with
    | done h => exact ⟨1, portion_of_done h 0⟩
    | skip h _ ih =>
      obtain ⟨n, hn⟩ := ih
      exact ⟨n + 1, by rw [portion_of_skip h, hn]⟩
    | yield h _ ih =>
      obtain ⟨n, hn⟩ := ih
      exact ⟨n + 1, by rw [portion_of_yield h, hn]; rfl⟩
  · rintro ⟨n, hn⟩
    induction n generalizing s items with
    | zero => cases hn
    | succ n ih =>
      cases h : s.step e with
      | done =>
        rw [portion_of_done h] at hn
        cases hn
        exact .done h
      | skip rest =>
        rw [portion_of_skip h] at hn
        exact .skip h (ih hn)
      | yield a rest =>
        rw [portion_of_yield h] at hn
        obtain ⟨rfl, hw⟩ := Portion.mk.inj hn
        exact .yield h (ih (congrArg (Portion.mk _) hw))

end Steps

section Combinators

variable {rest : Seq ε α}

theorem portion_filterMap (f : ε → α → Option α) (n : Nat) (s : Seq ε α) :
    (filterMap f s).portion e n = (s.portion e n).onItems (List.filterMap (f e)) := by
  induction n generalizing s with
  | zero => rfl
  | succ n ih =>
    cases h : s.step e with
    | done =>
      rw [portion_of_done h, portion_of_done (by simp only [step, h])]
      rfl
    | skip rest =>
      have hs : (filterMap f s).step e = .skip (filterMap f rest) := by simp only [step, h]
      rw [portion_of_skip h, portion_of_skip hs, ih]
    | yield a rest =>
      rw [portion_of_yield h]
      dsimp only [Portion.cons, Portion.onItems]
      cases hf : f e a with
      | none =>
        have hs : (filterMap f s).step e = .skip (filterMap f rest) := by simp only [step, h, hf]
        rw [List.filterMap_cons_none hf, portion_of_skip hs, ih]
        rfl
      | some b =>
        have hs : (filterMap f s).step e = .yield b (filterMap f rest) := by
          simp only [step, h, hf]
        rw [List.filterMap_cons_some hf, portion_of_yield hs, ih]
        rfl

theorem portion_distinct (same : α → α → Bool) (kept : List α) (n : Nat) (s : Seq ε α) :
    (distinct same kept s).portion e n = (s.portion e n).onItems (fresh same kept) := by
  induction n generalizing kept s with
  | zero => rfl
  | succ n ih =>
    cases h : s.step e with
    | done =>
      rw [portion_of_done h, portion_of_done (by simp only [step, h])]
      rfl
    | skip rest =>
      have hs : (distinct same kept s).step e = .skip (distinct same kept rest) := by
        simp only [step, h]
      rw [portion_of_skip h, portion_of_skip hs, ih]
    | yield a rest =>
      rw [portion_of_yield h]
      dsimp only [Portion.cons, Portion.onItems]
      rw [fresh]
      split
      · next hk =>
        have hs : (distinct same kept s).step e = .skip (distinct same kept rest) := by
          simp only [step, h, if_pos hk]
        rw [portion_of_skip hs, ih]
        rfl
      · next hk =>
        have hs : (distinct same kept s).step e = .yield a (distinct same (a :: kept) rest) := by
          simp only [step, h, if_neg hk]
        rw [portion_of_yield hs, ih]
        rfl

/-- When its items are through, a limit takes one more step to say so. -/
theorem portion_limit (k n : Nat) (s : Seq ε α) :
    ((limit k s).portion e n).Within ((s.portion e n).cut k) ∧
      ((s.portion e n).cut k).Within ((limit k s).portion e (n + 1)) := by
  induction n generalizing k s with
  | zero =>
    refine ⟨Portion.none_within _, ?_⟩
    cases k with
    | zero =>
      rw [Portion.cut_zero, portion_of_done (by rw [step])]
      exact .same _
    | succ k => exact Portion.none_within _
  | succ n ih =>
    cases k with
    | zero =>
      rw [Portion.cut_zero, portion_of_done (by rw [step]), portion_of_done (by rw [step])]
      exact ⟨.same _, .same _⟩
    | succ k =>
      cases h : s.step e with
      | done =>
        have hl : (limit (k + 1) s).step e = .done := by simp only [step, h]
        rw [portion_of_done h, portion_of_done hl, portion_of_done hl]
        exact ⟨.same _, .same _⟩
      | skip rest =>
        have hl : (limit (k + 1) s).step e = .skip (limit (k + 1) rest) := by simp only [step, h]
        rw [portion_of_skip h, portion_of_skip hl, portion_of_skip hl]
        exact ih (k + 1) rest
      | yield a rest =>
        have hl : (limit (k + 1) s).step e = .yield a (limit k rest) := by simp only [step, h]
        rw [portion_of_yield h, portion_of_yield hl, portion_of_yield hl, Portion.cut_cons]
        exact (ih k rest).imp (fun h => h.cons a) (fun h => h.cons a)

section Flatten

variable {expand : ε → α → Seq ε α}

theorem step_flatten_skip (h : s.step e = .skip rest) :
    (flatten expand s).step e = .skip (flatten expand rest) := by
  simp only [step, h]

theorem step_flatten_yield (h : s.step e = .yield a rest) :
    (flatten expand s).step e = .skip (inside (expand e a) expand rest) := by
  simp only [step, h]

theorem step_inside_done (h : inner.step e = .done) :
    (inside inner expand s).step e = .skip (flatten expand s) := by
  simp only [step, h]

theorem step_inside_skip (h : inner.step e = .skip rest) :
    (inside inner expand s).step e = .skip (inside rest expand s) := by
  simp only [step, h]

theorem step_inside_yield (h : inner.step e = .yield a rest) :
    (inside inner expand s).step e = .yield a (inside rest expand s) := by
  simp only [step, h]

/-- What a flattened sequence shows is what its inner sequences show, each up to its end. -/
theorem portion_flatten (expand : ε → α → Seq ε α) (n : Nat) (s : Seq ε α) :
    ((flatten expand s).portion e n).Within
        ((s.portion e n).flatten (fun a => (expand e a).portion e n)) ∧
      ∀ inner, ((inside inner expand s).portion e n).Within
        ((inner.portion e n).append
          ((s.portion e n).flatten (fun a => (expand e a).portion e n))) := by
  induction n generalizing s with
  | zero => exact ⟨Portion.none_within _, fun _ => Portion.none_within _⟩
  | succ n ih =>
    have hdeeper : ∀ t : Seq ε α, (t.portion e n).Within (t.portion e (n + 1)) :=
      portion_within_succ e n
    have hflat : ∀ {l l' : Portion α}, l.Within l' →
        (l.flatten (fun a => (expand e a).portion e n)).Within
          (l'.flatten (fun a => (expand e a).portion e (n + 1))) :=
      fun h => h.flatten (fun a => hdeeper (expand e a))
    refine ⟨?_, fun inner => ?_⟩
    · cases h : s.step e with
      | done =>
        rw [portion_of_done h, portion_of_done (by simp only [step, h])]
        exact .same _
      | skip rest =>
        rw [portion_of_skip h, portion_of_skip (step_flatten_skip h)]
        exact (ih rest).1.trans (hflat (.same _))
      | yield a rest =>
        rw [portion_of_yield h, portion_of_skip (step_flatten_yield h), Portion.flatten_cons]
        exact ((ih rest).2 (expand e a)).trans ((hdeeper _).append (hflat (.same _)))
    · cases h : inner.step e with
      | done =>
        rw [portion_of_done h, portion_of_skip (step_inside_done h),
          Portion.append_of_whole rfl]
        exact (ih s).1.trans (hflat (hdeeper s))
      | skip later =>
        rw [portion_of_skip h, portion_of_skip (step_inside_skip h)]
        exact ((ih s).2 later).trans (Portion.Within.append (.same _) (hflat (hdeeper s)))
      | yield b later =>
        rw [portion_of_yield h, portion_of_yield (step_inside_yield h), Portion.cons_append]
        exact (((ih s).2 later).trans
          (Portion.Within.append (.same _) (hflat (hdeeper s)))).cons b

theorem within_portion_inside {l : Portion α} {k : Nat}
    (hl : l.Within ((flatten expand s).portion e k)) (depth : Nat) (inner : Seq ε α) :
    ∃ m, ((inner.portion e depth).append l).Within ((inside inner expand s).portion e m) := by
  induction depth generalizing inner with
  | zero => exact ⟨0, Portion.none_within _⟩
  | succ depth ih =>
    cases h : inner.step e with
    | done =>
      refine ⟨k + 1, ?_⟩
      rw [portion_of_done h, portion_of_skip (step_inside_done h), Portion.append_of_whole rfl]
      exact hl
    | skip later =>
      obtain ⟨m, hm⟩ := ih later
      refine ⟨m + 1, ?_⟩
      rw [portion_of_skip h, portion_of_skip (step_inside_skip h)]
      exact hm
    | yield b later =>
      obtain ⟨m, hm⟩ := ih later
      refine ⟨m + 1, ?_⟩
      rw [portion_of_yield h, portion_of_yield (step_inside_yield h), Portion.cons_append]
      exact hm.cons b

/-- Enough steps of a flattened sequence show what any steps of its parts show. -/
theorem within_portion_flatten (expand : ε → α → Seq ε α) (depth n : Nat) (s : Seq ε α) :
    ∃ m, ((s.portion e n).flatten (fun a => (expand e a).portion e depth)).Within
      ((flatten expand s).portion e m) := by
  induction n generalizing s with
  | zero => exact ⟨0, Portion.none_within _⟩
  | succ n ih =>
    cases h : s.step e with
    | done =>
      refine ⟨1, ?_⟩
      rw [portion_of_done h, portion_of_done (by simp only [step, h])]
      exact .same _
    | skip rest =>
      obtain ⟨m, hm⟩ := ih rest
      refine ⟨m + 1, ?_⟩
      rw [portion_of_skip h, portion_of_skip (step_flatten_skip h)]
      exact hm
    | yield a rest =>
      obtain ⟨k, hk⟩ := ih rest
      obtain ⟨m, hm⟩ := within_portion_inside hk depth (expand e a)
      refine ⟨m + 1, ?_⟩
      rw [portion_of_yield h, portion_of_skip (step_flatten_yield h), Portion.flatten_cons]
      exact hm

end Flatten

theorem fresh_append (same : α → α → Bool) (kept items rest : List α) :
    fresh same kept items <+: fresh same kept (items ++ rest) := by
  induction items generalizing kept with
  | nil => exact List.nil_prefix
  | cons a items ih =>
    rw [List.cons_append, fresh, fresh]
    split
    · exact ih kept
    · exact (List.prefix_cons_inj a).mpr (ih (a :: kept))

theorem fresh_eq_eraseDupsBy (same : α → α → Bool) (items : List α) :
    fresh same [] items = items.eraseDupsBy same := by
  have hloop : ∀ kept, List.eraseDupsBy.loop same items kept =
      kept.reverse ++ fresh same kept items := by
    induction items with
    | nil =>
      intro kept
      rw [List.eraseDupsBy.loop, fresh, List.append_nil]
    | cons a items ih =>
      intro kept
      rw [List.eraseDupsBy.loop, fresh]
      cases kept.any (same a) with
      | true =>
        rw [if_pos rfl]
        exact ih kept
      | false =>
        rw [if_neg Bool.false_ne_true]
        dsimp only
        rw [ih, List.reverse_cons, List.append_assoc, List.singleton_append]
  exact (hloop []).symm

theorem portion_filter (keep : ε → α → Bool) (n : Nat) (s : Seq ε α) :
    (s.filter keep).portion e n = (s.portion e n).onItems (List.filter (keep e)) := by
  rw [Seq.filter, portion_filterMap, ← List.filterMap_eq_filter]
  rfl

theorem portion_map (f : ε → α → α) (n : Nat) (s : Seq ε α) :
    (s.map f).portion e n = (s.portion e n).onItems (List.map (f e)) := by
  rw [Seq.map, portion_filterMap, ← List.filterMap_eq_map]
  rfl

theorem portion_uniqueBy {κ : Type} [DecidableEq κ] (key : α → κ) (n : Nat) (s : Seq ε α) :
    (s.uniqueBy key).portion e n =
      (s.portion e n).onItems (List.eraseDupsBy (fun a b => decide (key a = key b))) := by
  rw [Seq.uniqueBy, portion_distinct, funext (fresh_eq_eraseDupsBy _)]

end Combinators

end Seq

/-- An operation that a sequence can be chained with. -/
inductive Operation (ε α : Type) : Type 1 where
  | filter (keep : ε → α → Bool)
  | map (f : ε → α → α)
  | limit (n : Nat)
  | uniqueBy {κ : Type} [DecidableEq κ] (key : α → κ)
  | flatten (expand : ε → α → Seq ε α)

namespace Operation

variable {ε α : Type} {e : ε} {l l' : Portion α} {depth depth' : Nat}

def apply : Operation ε α → Seq ε α → Seq ε α
  | filter keep, s => s.filter keep
  | map f, s => s.map f
  | limit n, s => s.limit n
  | uniqueBy key, s => s.uniqueBy key
  | flatten expand, s => s.flatten expand

/-- The operation on a list. Of a sequence that an item is flattened into only what some steps
bring to light is known. -/
def onPortion (e : ε) (depth : Nat) : Operation ε α → Portion α → Portion α
  | filter keep, l => l.onItems (List.filter (keep e))
  | map f, l => l.onItems (List.map (f e))
  | limit n, l => l.cut n
  | uniqueBy key, l => l.onItems (List.eraseDupsBy (fun a b => decide (key a = key b)))
  | flatten expand, l => l.flatten (fun a => (expand e a).portion e depth)

/-- The more is known of a list, the more is known of what an operation makes of it. -/
theorem onPortion_mono (op : Operation ε α) (hd : depth ≤ depth') (hl : l.Within l') :
    (op.onPortion e depth l).Within (op.onPortion e depth' l') := by
  cases op with
  | filter keep =>
    refine hl.onItems (fun items rest => ?_)
    rw [List.filter_append]
    exact List.prefix_append _ _
  | map f =>
    refine hl.onItems (fun items rest => ?_)
    rw [List.map_append]
    exact List.prefix_append _ _
  | limit n => exact hl.cut n
  | uniqueBy key =>
    refine hl.onItems (fun items rest => ?_)
    rw [← Seq.fresh_eq_eraseDupsBy, ← Seq.fresh_eq_eraseDupsBy]
    exact Seq.fresh_append _ [] items rest
  | flatten expand => exact hl.flatten (fun a => (expand e a).portion_within hd)

/-- What some steps show of the sequence is what the list operation gives. -/
theorem portion_apply (op : Operation ε α) (n : Nat) (s : Seq ε α) :
    ((op.apply s).portion e n).Within (op.onPortion e n (s.portion e n)) := by
  cases op with
  | filter keep =>
    rw [apply, Seq.portion_filter, onPortion]
    exact .same _
  | map f =>
    rw [apply, Seq.portion_map, onPortion]
    exact .same _
  | limit k => exact (Seq.portion_limit k n s).1
  | uniqueBy key =>
    rw [apply, Seq.portion_uniqueBy, onPortion]
    exact .same _
  | flatten expand => exact (Seq.portion_flatten expand n s).1

/-- What the list operation gives is shown by enough steps of the sequence. -/
theorem within_portion_apply (op : Operation ε α) (depth n : Nat) (s : Seq ε α) :
    ∃ m, (op.onPortion e depth (s.portion e n)).Within ((op.apply s).portion e m) := by
  cases op with
  | filter keep =>
    refine ⟨n, ?_⟩
    rw [apply, Seq.portion_filter, onPortion]
    exact .same _
  | map f =>
    refine ⟨n, ?_⟩
    rw [apply, Seq.portion_map, onPortion]
    exact .same _
  | limit k => exact ⟨n + 1, (Seq.portion_limit k n s).2⟩
  | uniqueBy key =>
    refine ⟨n, ?_⟩
    rw [apply, Seq.portion_uniqueBy, onPortion]
    exact .same _
  | flatten expand => exact Seq.within_portion_flatten expand depth n s

/-- The operations on a list, one after the other. -/
def onAll (e : ε) (depth : Nat) (ops : List (Operation ε α)) (l : Portion α) : Portion α :=
  ops.foldl (fun l op => op.onPortion e depth l) l

theorem onAll_mono (ops : List (Operation ε α)) (hd : depth ≤ depth') (hl : l.Within l') :
    (onAll e depth ops l).Within (onAll e depth' ops l') := by
  unfold onAll
  induction ops generalizing l l' with
  | nil => exact hl
  | cons op ops ih => exact ih (op.onPortion_mono hd hl)

end Operation

namespace Seq

variable {ε α : Type} {e : ε} {s : Seq ε α} {items : List α}

/-- The sequence behind operations that are chained to it one after the other. -/
def chain (s : Seq ε α) (ops : List (Operation ε α)) : Seq ε α :=
  ops.foldl (fun s op => op.apply s) s

theorem portion_chain (ops : List (Operation ε α)) (n : Nat) (s : Seq ε α) :
    ((s.chain ops).portion e n).Within (Operation.onAll e n ops (s.portion e n)) := by
  induction ops generalizing s with
  | nil => exact .same _
  | cons op ops ih =>
    exact (ih (op.apply s)).trans (Operation.onAll_mono ops (Nat.le_refl _) (op.portion_apply n s))

theorem within_portion_chain (ops : List (Operation ε α)) (depth n : Nat) (s : Seq ε α) :
    ∃ m, (Operation.onAll e depth ops (s.portion e n)).Within ((s.chain ops).portion e m) := by
  induction ops generalizing s n with
  | nil => exact ⟨n, .same _⟩
  | cons op ops ih =>
    obtain ⟨k, hk⟩ := op.within_portion_apply depth n s
    obtain ⟨m, hm⟩ := ih k (op.apply s)
    exact ⟨m, (Operation.onAll_mono ops (Nat.le_refl _) hk).trans hm⟩

/-- Behind a sequence that ends a chain ends exactly if the list operations make a whole list of
what that sequence yields. -/
theorem Yields.chain_iff {whole : List α} (h : Yields e s whole) (ops : List (Operation ε α)) :
    Yields e (s.chain ops) items ↔
      ∃ depth, Operation.onAll e depth ops ⟨whole, true⟩ = ⟨items, true⟩ := by
  obtain ⟨n, hn⟩ := yields_iff_portion.mp h
  rw [yields_iff_portion]
  constructor
  · rintro ⟨m, hm⟩
    have hshown : (s.portion e m).Within ⟨whole, true⟩ := by
      have hend : s.portion e (max m n) = s.portion e n :=
        (s.portion_within (Nat.le_max_right m n)).eq_of_whole (by rw [hn])
      rw [← hn, ← hend]
      exact s.portion_within (Nat.le_max_left m n)
    have hall := (portion_chain ops m s).trans
      (Operation.onAll_mono (e := e) ops (Nat.le_refl _) hshown)
    exact ⟨m, (hall.eq_of_whole (by rw [hm])).trans hm⟩
  · rintro ⟨depth, hd⟩
    obtain ⟨m, hm⟩ := within_portion_chain (e := e) ops depth n s
    rw [hn, hd] at hm
    exact ⟨m, hm.eq_of_whole rfl⟩

end Seq

end PropertyGraph
