import Mathlib.Order.Bounds.Basic
import PropertyGraph.Proofs.ListOperations

namespace PropertyGraph

/-- Where a step leads, unless it ends. -/
def Step.rest? {α σ : Type} : Step α σ → Option σ
  | done => none
  | skip rest => some rest
  | yield _ rest => some rest

theorem Step.rest?_skip {α σ : Type} {t : Step α σ} {r : σ} (h : t = .skip r) :
    t.rest? = some r := by rw [h]; rfl

theorem Step.rest?_yield {α σ : Type} {t : Step α σ} {a : α} {r : σ} (h : t = .yield a r) :
    t.rest? = some r := by rw [h]; rfl

/-- The step with what is behind it changed. -/
def Step.map {α σ : Type} (f : σ → σ) : Step α σ → Step α σ
  | done => done
  | skip rest => skip (f rest)
  | yield a rest => yield a (f rest)

namespace Seq

variable {ε α : Type} {e : ε} {s rest u : Seq ε α} {items more passed : List α} {a : α}
  {other : Nat → Option α} {n k fuel fuel' : Nat}

section Source

/-- The items that the source of the sequence stands on. -/
def items? : Seq ε α → Nat → Option α
  | source item? _ => item?
  | filterMap _ rest => rest.items?
  | limit _ rest => rest.items?
  | distinct _ _ rest => rest.items?
  | flatten _ rest => rest.items?
  | inside _ _ rest => rest.items?

/-- The sequence in its present state, on a source with other items. -/
def onSource (other : Nat → Option α) : Seq ε α → Seq ε α
  | source _ n => source other n
  | filterMap f rest => filterMap f (rest.onSource other)
  | limit n rest => limit n (rest.onSource other)
  | distinct same kept rest => distinct same kept (rest.onSource other)
  | flatten expand rest => flatten expand (rest.onSource other)
  | inside inner expand rest => inside inner expand (rest.onSource other)

theorem pulled_onSource (other : Nat → Option α) (s : Seq ε α) :
    (s.onSource other).pulled = s.pulled := by
  induction s <;> simp_all [onSource, pulled]

theorem onSource_items? (other : Nat → Option α) (s : Seq ε α) :
    (s.onSource other).items? = other := by
  induction s <;> simp_all [onSource, items?]

theorem onSource_onSource (item? other : Nat → Option α) (s : Seq ε α) :
    (s.onSource item?).onSource other = s.onSource other := by
  induction s <;> simp_all [onSource]

theorem onSource_self (s : Seq ε α) : s.onSource s.items? = s := by
  induction s <;> simp_all [onSource, items?]

/-- A state that comes after another one: on the same source, which held what was taken since. -/
structure Behind (s rest : Seq ε α) : Prop where
  sameItems : rest.items? = s.items?
  pulled_le : s.pulled ≤ rest.pulled
  held : ∀ i, s.pulled ≤ i → i < rest.pulled → (s.items? i).isSome

theorem Behind.refl (s : Seq ε α) : s.Behind s :=
  ⟨rfl, Nat.le_refl _, fun _ h h' => absurd h' (Nat.not_lt.mpr h)⟩

theorem Behind.trans (h : s.Behind rest) (h' : rest.Behind u) : s.Behind u := by
  refine ⟨h'.sameItems.trans h.sameItems, Nat.le_trans h.pulled_le h'.pulled_le, ?_⟩
  intro i hi hu
  by_cases hr : i < rest.pulled
  · exact h.held i hi hr
  · rw [← h.sameItems]
    exact h'.held i (Nat.le_of_not_lt hr) hu

/-- The source and what is taken from it look the same through an outer layer. -/
theorem Behind.of_eq {s' rest' : Seq ε α} (h : s.Behind rest) (hs : s'.items? = s.items?)
    (hsp : s'.pulled = s.pulled) (hr : rest'.items? = rest.items?)
    (hrp : rest'.pulled = rest.pulled) : s'.Behind rest' := by
  refine ⟨by rw [hr, hs, h.sameItems], by rw [hsp, hrp]; exact h.pulled_le, ?_⟩
  rw [hs, hsp, hrp]
  exact h.held

/-- A step that does not end leads on, and it depends on the source only through the item that it
takes. -/
theorem step_onSource (h : (s.step e).rest? = some rest)
    (hsame : ∀ i, s.pulled ≤ i → i < rest.pulled → other i = s.items? i) :
    (s.onSource other).step e = (s.step e).map (onSource other) := by
  fun_induction step e s generalizing rest with
  | case1 | case3 | case7 | case8 | case11 | case15 => cases h
  | case2 item? n a hn =>
    obtain rfl : source item? (n + 1) = rest := Option.some.inj h
    have ho : other n = item? n := hsame n (Nat.le_refl n) (Nat.lt_succ_self n)
    simp only [onSource, step, ho, hn, Step.map]
  -- inside an inner sequence the source is not asked
  | case18 | case19 | case20 => simp_all only [onSource, step, Step.map]
  | _ =>
    obtain rfl := Option.some.inj h
    simp_all [Step.rest?, onSource, step, Step.map, pulled, items?]

/-- What the outermost layer of a sequence is laid over. -/
def inner? : Seq ε α → Option (Seq ε α)
  | source _ _ => none
  | filterMap _ rest => some rest
  | limit _ rest => some rest
  | distinct _ _ rest => some rest
  | flatten _ rest => some rest
  | inside _ _ rest => some rest

theorem items?_inner (h : s.inner? = some u) : u.items? = s.items? := by
  cases s <;> cases h <;> rfl

theorem pulled_inner (h : s.inner? = some u) : u.pulled = s.pulled := by
  cases s <;> cases h <;> rfl

/-- A layer stays a layer, and in one step it takes at most one step of what it is laid over. -/
theorem step_inner (hs : s.inner? = some u) (h : (s.step e).rest? = some rest) :
    ∃ v, rest.inner? = some v ∧ (v = u ∨ (u.step e).rest? = some v) := by
  fun_induction step e s with
  | case1 | case3 | case7 | case8 | case11 | case15 => cases h
  | case2 => cases hs
  -- inside an inner sequence the layer beneath does not move
  | case18 | case19 | case20 =>
    cases hs
    cases h
    exact ⟨_, rfl, .inl rfl⟩
  | _ =>
    cases hs
    cases h
    refine ⟨_, rfl, .inr ?_⟩
    simp_all only [Step.rest?]

/-- A step that does not end leads on to a state that comes after. -/
theorem step_behind (h : (s.step e).rest? = some rest) : s.Behind rest := by
  induction s generalizing rest with
  | source item? n =>
    cases hn : item? n with
    | none => simp [step, hn, Step.rest?] at h
    | some a =>
      obtain rfl : source item? (n + 1) = rest := by simpa [step, hn, Step.rest?] using h
      refine ⟨rfl, Nat.le_succ n, fun i hi hlt => ?_⟩
      obtain rfl : i = n := Nat.le_antisymm (Nat.le_of_lt_succ hlt) hi
      exact Option.isSome_of_eq_some hn
  | filterMap _ u ih | limit _ u ih | distinct _ _ u ih | flatten _ u _ ih
    | inside _ _ u _ _ ih =>
    obtain ⟨v, hv, hstep⟩ := step_inner rfl h
    have hb : u.Behind v := by
      rcases hstep with rfl | hstep
      · exact .refl v
      · exact ih hstep
    exact hb.of_eq rfl rfl (items?_inner hv).symm (pulled_inner hv).symm

end Source

section Driving

/-- Some steps lead from one state to another and hand out the items. -/
inductive Run (e : ε) : Seq ε α → List α → Seq ε α → Prop
  | refl (s : Seq ε α) : Run e s [] s
  | skip {s next rest : Seq ε α} {items : List α} (h : s.step e = .skip next)
    (hr : Run e next items rest) : Run e s items rest
  | yield {s next rest : Seq ε α} {a : α} {items : List α} (h : s.step e = .yield a next)
    (hr : Run e next items rest) : Run e s (a :: items) rest

theorem Run.behind (h : Run e s items rest) : s.Behind rest := by
  induction h with
  | refl s => exact .refl s
  | skip h _ ih => exact (step_behind (Step.rest?_skip h)).trans ih
  | yield h _ ih => exact (step_behind (Step.rest?_yield h)).trans ih

theorem Run.trans (h : Run e s items rest) (h' : Run e rest more u) :
    Run e s (items ++ more) u := by
  induction h with
  | refl => exact h'
  | skip h _ ih => exact .skip h (ih h')
  | yield h _ ih => exact .yield h (ih h')

/-- What a sequence yields is what a run hands out and what is yielded from there. -/
theorem Run.yields (h : Run e s items rest) (hr : Yields e rest more) :
    Yields e s (items ++ more) := by
  induction h with
  | refl => exact hr
  | skip h _ ih => exact .skip h (ih hr)
  | yield h _ ih => exact .yield h (ih hr)

theorem Run.yields_rest {all : List α} (h : Run e s items rest) (hs : Yields e s all) :
    ∃ left, all = items ++ left ∧ Yields e rest left := by
  induction h generalizing all with
  | refl => exact ⟨all, rfl, hs⟩
  | skip h _ ih =>
    cases hs with
    | done hd => rw [h] at hd; cases hd
    | skip hd hr =>
      rw [h] at hd
      cases hd
      exact ih hr
    | yield hd hr => rw [h] at hd; cases hd
  | yield h _ ih =>
    cases hs with
    | done hd => rw [h] at hd; cases hd
    | skip hd hr => rw [h] at hd; cases hd
    | yield hd hr =>
      rw [h] at hd
      cases hd
      obtain ⟨left, rfl, hleft⟩ := ih hr
      exact ⟨left, rfl, hleft⟩

theorem next_run (h : s.next e fuel = .item a rest) : Run e s [a] rest := by
  induction fuel generalizing s with
  | zero => cases h
  | succ fuel ih =>
    cases hs : s.step e with
    | done => simp only [next, hs] at h; cases h
    | skip r =>
      simp only [next, hs] at h
      exact .skip hs (ih h)
    | yield b r =>
      simp only [next, hs] at h
      cases h
      exact .yield hs (.refl rest)

theorem next_mono (h : s.next e fuel = .item a rest) (hf : fuel ≤ fuel') :
    s.next e fuel' = .item a rest := by
  induction fuel generalizing s fuel' with
  | zero => cases h
  | succ fuel ih =>
    obtain ⟨n, rfl⟩ := Nat.exists_eq_add_of_le' (Nat.le_of_add_left_le hf)
    cases hs : s.step e with
    | done => simp only [next, hs] at h; cases h
    | skip r =>
      simp only [next, hs] at h ⊢
      exact ih h (by omega)
    | yield b r =>
      simp only [next, hs] at h ⊢
      exact h

theorem next_onSource (h : s.next e fuel = .item a rest)
    (hsame : ∀ i, s.pulled ≤ i → i < rest.pulled → other i = s.items? i) :
    (s.onSource other).next e fuel = .item a (rest.onSource other) := by
  induction fuel generalizing s with
  | zero => cases h
  | succ fuel ih =>
    cases hs : s.step e with
    | done => simp only [next, hs] at h; cases h
    | skip r =>
      simp only [next, hs] at h
      have hb := step_behind (Step.rest?_skip hs)
      have hr := (next_run h).behind
      have hstep := step_onSource (Step.rest?_skip hs)
        (fun i hi hlt => hsame i hi (Nat.lt_of_lt_of_le hlt hr.pulled_le))
      rw [hs] at hstep
      simp only [next, hstep, Step.map]
      refine ih h (fun i hi hlt => ?_)
      rw [hb.sameItems]
      exact hsame i (Nat.le_trans hb.pulled_le hi) hlt
    | yield b r =>
      simp only [next, hs] at h
      cases h
      have hstep := step_onSource (Step.rest?_yield hs) hsame
      rw [hs] at hstep
      simp only [next, hstep, Step.map]

theorem take_succ (h : s.next e fuel = .item a rest) (k : Nat) :
    s.take e fuel (k + 1) = (a :: (rest.take e fuel k).1, (rest.take e fuel k).2) := by
  rw [take, h]

/-- A sequence that hands out as many items as it is asked for has a first one. -/
theorem take_full (h : (s.take e fuel (k + 1)).1.length = k + 1) :
    ∃ a rest, s.next e fuel = .item a rest ∧ (rest.take e fuel k).1.length = k := by
  cases hn : s.next e fuel with
  | item a rest =>
    rw [take_succ hn] at h
    exact ⟨a, rest, rfl, Nat.succ.inj h⟩
  | ended rest => rw [take, hn] at h; cases h
  | outOfFuel rest => rw [take, hn] at h; cases h

theorem take_run (h : (s.take e fuel k).1.length = k) :
    Run e s (s.take e fuel k).1 (s.take e fuel k).2 := by
  induction k generalizing s with
  | zero => exact .refl s
  | succ k ih =>
    obtain ⟨a, rest, hn, hr⟩ := take_full h
    rw [take_succ hn]
    exact (next_run hn).trans (ih hr)

theorem take_mono (h : (s.take e fuel k).1.length = k) (hf : fuel ≤ fuel') :
    s.take e fuel' k = s.take e fuel k := by
  induction k generalizing s with
  | zero => rfl
  | succ k ih =>
    obtain ⟨a, rest, hn, hr⟩ := take_full h
    rw [take_succ hn, take_succ (next_mono hn hf), ih hr]

theorem take_unique (h : (s.take e fuel k).1.length = k) (h' : (s.take e fuel' k).1.length = k) :
    s.take e fuel k = s.take e fuel' k :=
  (take_mono h (Nat.le_max_left fuel fuel')).symm.trans (take_mono h' (Nat.le_max_right _ _))

/-- Driven to some items, a sequence does the same on a source that agrees on what is taken. -/
theorem take_onSource (h : (s.take e fuel k).1.length = k)
    (hsame : ∀ i, s.pulled ≤ i → i < (s.take e fuel k).2.pulled → other i = s.items? i) :
    (s.onSource other).take e fuel k =
      ((s.take e fuel k).1, (s.take e fuel k).2.onSource other) := by
  induction k generalizing s with
  | zero => rfl
  | succ k ih =>
    obtain ⟨a, rest, hn, hr⟩ := take_full h
    rw [take_succ hn] at hsame ⊢
    have hfirst := (next_run hn).behind
    have hlater := (take_run hr).behind
    have hnext := next_onSource hn
      (fun i hi hlt => hsame i hi (Nat.lt_of_lt_of_le hlt hlater.pulled_le))
    rw [take_succ hnext, ih hr (fun i hi hlt => ?_)]
    rw [hfirst.sameItems]
    exact hsame i (Nat.le_trans hfirst.pulled_le hi) hlt

/-- The first item is the first one of what enough steps show. -/
theorem portion_of_next (h : s.next e fuel = .item a rest) :
    ∃ d, ∀ n, s.portion e (n + d) = .cons a (rest.portion e n) := by
  induction fuel generalizing s with
  | zero => cases h
  | succ fuel ih =>
    cases hs : s.step e with
    | done => simp only [next, hs] at h; cases h
    | skip r =>
      simp only [next, hs] at h
      obtain ⟨d, hd⟩ := ih h
      exact ⟨d + 1, fun n => (portion_of_skip hs (n + d)).trans (hd n)⟩
    | yield b r =>
      simp only [next, hs] at h
      cases h
      exact ⟨1, fun n => portion_of_yield hs n⟩

/-- Driving hands out what some steps show. -/
theorem take_iff_portion :
    (∃ fuel, (s.take e fuel items.length).1 = items) ↔ ∃ n, items <+: (s.portion e n).items := by
  constructor
  · rintro ⟨fuel, h⟩
    induction items generalizing s with
    | nil => exact ⟨0, List.nil_prefix⟩
    | cons a items ih =>
      have hfull : (s.take e fuel (items.length + 1)).1.length = items.length + 1 :=
        congrArg List.length h
      obtain ⟨b, rest, hn, -⟩ := take_full hfull
      rw [List.length_cons, take_succ hn] at h
      obtain ⟨rfl, hr⟩ := List.cons.inj h
      obtain ⟨n, hpre⟩ := ih hr
      obtain ⟨d, hd⟩ := portion_of_next hn
      refine ⟨n + d, ?_⟩
      rw [hd]
      exact (List.prefix_cons_inj b).mpr hpre
  · rintro ⟨n, h⟩
    induction n generalizing s items with
    | zero =>
      obtain rfl := List.prefix_nil.mp h
      exact ⟨0, rfl⟩
    | succ n ih =>
      cases items with
      | nil => exact ⟨0, rfl⟩
      | cons a items =>
        cases hs : s.step e with
        | done =>
          rw [portion_of_done hs] at h
          cases List.prefix_nil.mp h
        | skip r =>
          rw [portion_of_skip hs] at h
          obtain ⟨fuel, hf⟩ := ih h
          have hfull : (r.take e fuel (items.length + 1)).1.length = items.length + 1 :=
            congrArg List.length hf
          obtain ⟨b, rest, hn, hr⟩ := take_full hfull
          have hfirst : s.next e (fuel + 1) = .item b rest := by simp only [next, hs, hn]
          refine ⟨fuel + 1, ?_⟩
          rw [List.length_cons, take_succ hfirst, take_mono hr (Nat.le_succ fuel)]
          rw [List.length_cons, take_succ hn] at hf
          exact hf
        | yield b r =>
          rw [portion_of_yield hs] at h
          obtain ⟨rfl, hpre⟩ := List.cons_prefix_cons.mp h
          obtain ⟨fuel, hf⟩ := ih hpre
          have hfirst : s.next e (fuel + 1) = .item a r := by simp only [next, hs]
          refine ⟨fuel + 1, ?_⟩
          rw [List.length_cons, take_succ hfirst,
            take_mono (congrArg List.length hf) (Nat.le_succ fuel), hf]

end Driving

section Layers

/-- What is left of a sequence beneath its outermost layers, if it has as many. -/
def beneath? : Nat → Seq ε α → Option (Seq ε α)
  | 0, s => some s
  | layers + 1, s => s.inner?.bind (beneath? layers)

theorem beneath?_succ {layers : Nat} (h : s.beneath? (layers + 1) = some u) :
    ∃ v, s.inner? = some v ∧ v.beneath? layers = some u := Option.bind_eq_some_iff.mp h

theorem pulled_beneath {layers : Nat} (h : s.beneath? layers = some u) : u.pulled = s.pulled := by
  induction layers generalizing s with
  | zero =>
    obtain rfl := Option.some.inj h
    rfl
  | succ layers ih =>
    obtain ⟨v, hv, hu⟩ := beneath?_succ h
    rw [ih hu, pulled_inner hv]

/-- While the whole takes a step, what is beneath some layers stays there and runs on, if at all. -/
theorem step_beneath {layers : Nat} (hs : s.beneath? layers = some u)
    (h : (s.step e).rest? = some rest) :
    ∃ v passed, rest.beneath? layers = some v ∧ Run e u passed v := by
  induction layers generalizing s rest with
  | zero =>
    obtain rfl := Option.some.inj hs
    cases hstep : s.step e with
    | done =>
      rw [hstep] at h
      cases h
    | skip r =>
      rw [hstep] at h
      cases h
      exact ⟨rest, [], rfl, .skip hstep (.refl rest)⟩
    | yield a r =>
      rw [hstep] at h
      cases h
      exact ⟨rest, [a], rfl, .yield hstep (.refl rest)⟩
  | succ layers ih =>
    obtain ⟨v, hv, hu⟩ := beneath?_succ hs
    obtain ⟨w, hw, rfl | hmoved⟩ := step_inner hv h
    · exact ⟨u, [], by rw [beneath?, hw]; exact hu, .refl u⟩
    · obtain ⟨x, passed, hx, hrun⟩ := ih hu hmoved
      exact ⟨x, passed, by rw [beneath?, hw]; exact hx, hrun⟩

/-- While the whole runs, so does what is beneath some layers. -/
theorem Run.beneath {layers : Nat} (h : Run e s items rest) (hs : s.beneath? layers = some u) :
    ∃ v passed, rest.beneath? layers = some v ∧ Run e u passed v := by
  induction h generalizing u with
  | refl => exact ⟨u, [], hs, .refl u⟩
  | skip h _ ih =>
    obtain ⟨v, passed, hv, hrun⟩ := step_beneath hs (Step.rest?_skip h)
    obtain ⟨w, more, hw, hrest⟩ := ih hv
    exact ⟨w, passed ++ more, hw, hrun.trans hrest⟩
  | yield h _ ih =>
    obtain ⟨v, passed, hv, hrun⟩ := step_beneath hs (Step.rest?_yield h)
    obtain ⟨w, more, hw, hrest⟩ := ih hv
    exact ⟨w, passed ++ more, hw, hrun.trans hrest⟩

/-- A limit counts down what it lets through, and lets through what it is given. -/
theorem Run.of_limit (h : Run e (limit n s) passed rest) :
    passed.length ≤ n ∧ ∃ u, rest = limit (n - passed.length) u ∧ Run e s passed u := by
  generalize hl : limit n s = l at h
  induction h generalizing n s with
  | refl => exact ⟨Nat.zero_le n, s, hl.symm, .refl s⟩
  | skip h _ ih =>
    subst hl
    cases n with
    | zero => cases h
    | succ n =>
      cases hs : s.step e with
      | done => simp only [step, hs] at h; cases h
      | skip r =>
        simp only [step, hs] at h
        cases h
        obtain ⟨hle, u, hu, hrun⟩ := ih rfl
        exact ⟨hle, u, hu, .skip hs hrun⟩
      | yield b r => simp only [step, hs] at h; cases h
  | yield h _ ih =>
    subst hl
    cases n with
    | zero => cases h
    | succ n =>
      cases hs : s.step e with
      | done => simp only [step, hs] at h; cases h
      | skip r => simp only [step, hs] at h; cases h
      | yield b r =>
        simp only [step, hs] at h
        cases h
        obtain ⟨hle, u, hu, hrun⟩ := ih rfl
        refine ⟨Nat.succ_le_succ hle, u, ?_, .yield hs hrun⟩
        rw [List.length_cons, Nat.succ_sub_succ]
        exact hu

/-- A sequence above a limit that is used up takes nothing more from its source. -/
theorem Run.pulled_of_exhausted {layers : Nat} (h : Run e s items rest)
    (hs : s.beneath? layers = some (limit 0 u)) : rest.pulled = s.pulled := by
  obtain ⟨v, passed, hv, hrun⟩ := h.beneath hs
  cases hrun with
  | refl => rw [← pulled_beneath hv, ← pulled_beneath hs]
  | skip h => cases h
  | yield h => cases h

end Layers

section Chains

theorem chain_cons (op : Operation ε α) (ops : List (Operation ε α)) (s : Seq ε α) :
    s.chain (op :: ops) = (op.apply s).chain ops := rfl

theorem chain_append (before after : List (Operation ε α)) (s : Seq ε α) :
    s.chain (before ++ after) = (s.chain before).chain after := List.foldl_append

theorem pulled_chain (ops : List (Operation ε α)) (s : Seq ε α) :
    (s.chain ops).pulled = s.pulled := by
  induction ops generalizing s with
  | nil => rfl
  | cons op ops ih =>
    rw [chain_cons, ih]
    cases op <;> rfl

theorem chain_items? (ops : List (Operation ε α)) (s : Seq ε α) :
    (s.chain ops).items? = s.items? := by
  induction ops generalizing s with
  | nil => rfl
  | cons op ops ih =>
    rw [chain_cons, ih]
    cases op <;> rfl

theorem chain_onSource (ops : List (Operation ε α)) (other : Nat → Option α) (s : Seq ε α) :
    (s.chain ops).onSource other = (s.onSource other).chain ops := by
  induction ops generalizing s with
  | nil => rfl
  | cons op ops ih =>
    rw [chain_cons, chain_cons, ih]
    cases op <;> rfl

/-- Each operation is one layer. -/
theorem chain_beneath (ops : List (Operation ε α)) (s : Seq ε α) :
    (s.chain ops).beneath? ops.length = some s := by
  have hsucc : ∀ (layers : Nat) {t u : Seq ε α}, t.beneath? layers = some u →
      t.beneath? (layers + 1) = u.inner? := by
    intro layers
    induction layers with
    | zero =>
      intro t u h
      obtain rfl := Option.some.inj h
      exact Option.bind_fun_some _
    | succ layers ih =>
      intro t u h
      obtain ⟨v, hv, hu⟩ := beneath?_succ h
      rw [beneath?, hv]
      exact ih hu
  induction ops generalizing s with
  | nil => rfl
  | cons op ops ih =>
    rw [chain_cons, List.length_cons, hsucc _ (ih (op.apply s))]
    cases op <;> rfl

/-- Behind a sequence that ends a chain ends, if whatever it flattens does. -/
theorem Yields.chain (h : Yields e s items) (ops : List (Operation ε α))
    (hflat : ∀ expand, .flatten expand ∈ ops → ∀ a, ∃ inner, Yields e (expand e a) inner) :
    ∃ whole, Yields e (s.chain ops) whole := by
  induction ops generalizing s items with
  | nil => exact ⟨items, h⟩
  | cons op ops ih =>
    have hlater : ∀ expand, .flatten expand ∈ ops → ∀ a, ∃ inner, Yields e (expand e a) inner :=
      fun expand hm => hflat expand (List.mem_cons_of_mem _ hm)
    rw [chain_cons]
    cases op with
    | filter keep => exact ih (h.filterMap _) hlater
    | map f => exact ih (h.filterMap _) hlater
    | limit n => exact ih (h.limit n) hlater
    | uniqueBy key => exact ih (h.distinct _ _) hlater
    | flatten expand =>
      have hinner := hflat expand List.mem_cons_self
      choose inner hinner using hinner
      exact ih (h.flatten (fun a _ => hinner a)) hlater

/-- The first items of a source. -/
def firstOf (item? : Nat → Option α) (m : Nat) : Nat → Option α :=
  fun i => if i < m then item? i else none

theorem firstOf_of_lt {item? : Nat → Option α} {m i : Nat} (h : i < m) :
    firstOf item? m i = item? i := if_pos h

theorem lt_of_firstOf_isSome {item? : Nat → Option α} {m i : Nat}
    (h : (firstOf item? m i).isSome) : i < m := by
  by_contra hn
  rw [firstOf, if_neg hn] at h
  cases h

/-- What is taken of the source for some items is the least that suffices for as many. -/
theorem pulled_is_least (hs : s.pulled = 0) (h : (s.take e fuel k).1.length = k) :
    IsLeast {m | ∃ fuel, ((s.onSource (firstOf s.items? m)).take e fuel k).1.length = k}
      (s.take e fuel k).2.pulled := by
  constructor
  · refine ⟨fuel, ?_⟩
    rw [take_onSource h (fun i _ hlt => firstOf_of_lt hlt)]
    exact h
  · rintro m ⟨fuel', hm⟩
    -- The run on a source that ends after `m` items takes no more than `m`, and the whole source
    -- agrees with that one as far as it takes.
    generalize ht : s.onSource (firstOf s.items? m) = t at hm
    have hitems : t.items? = firstOf s.items? m := by rw [← ht, onSource_items?]
    have hback : t.onSource s.items? = s := by rw [← ht, onSource_onSource, onSource_self]
    have hstart : t.pulled = 0 := by rw [← ht, pulled_onSource, hs]
    have hle : (t.take e fuel' k).2.pulled ≤ m := by
      by_contra hlt
      have hheld := (take_run hm).behind.held m (hstart ▸ Nat.zero_le m) (Nat.lt_of_not_le hlt)
      rw [hitems] at hheld
      exact absurd (lt_of_firstOf_isSome hheld) (Nat.lt_irrefl m)
    have hsame : (t.onSource s.items?).take e fuel' k = _ := take_onSource hm (fun i _ hlt => by
      rw [hitems, firstOf_of_lt (Nat.lt_of_lt_of_le hlt hle)])
    rw [hback] at hsame
    have hfull : (s.take e fuel' k).1.length = k := by rw [hsame]; exact hm
    rw [take_unique h hfull, hsame, pulled_onSource]
    exact hle

/-- What holds of a chain that is being driven when a limit in it has let all its items through:
behind the limit only what was passed on is worked off. -/
structure Settled (e : ε) (whole driven : Seq ε α) (after : List (Operation ε α))
    (passed : List α) : Prop where
  takes_nothing : ∀ {more rest}, Run e driven more rest → rest.pulled = driven.pulled
  yields_iff : ∀ items, Yields e whole items ↔
    ∃ depth, Operation.onAll e depth after ⟨passed, true⟩ = ⟨items, true⟩
  ends : (∀ expand, .flatten expand ∈ after → ∀ a, ∃ inner, Yields e (expand e a) inner) →
    ∃ left, Yields e driven left

theorem settled_of_limit {driven : Seq ε α} {after : List (Operation ε α)} {handed : List α}
    (hdriven : Run e ((limit n s).chain after) handed driven)
    (hbeneath : driven.beneath? after.length = some (limit 0 u))
    (hpassed : Run e (limit n s) passed (limit 0 u)) :
    Settled e ((limit n s).chain after) driven after passed := by
  have hy : Yields e (limit n s) passed := by
    have hdone : Yields e (limit 0 u) [] := .done (by rw [step])
    simpa using hpassed.yields hdone
  refine ⟨fun hmore => hmore.pulled_of_exhausted hbeneath, fun items => hy.chain_iff after, ?_⟩
  intro hflat
  obtain ⟨whole, hwhole⟩ := hy.chain after hflat
  obtain ⟨left, -, hleft⟩ := hdriven.yields_rest hwhole
  exact ⟨left, hleft⟩

/-- A chain of operations asks for nothing when it is built. Driven, it hands out what the list
operations give, of however much of the source they need. When it has handed out `k` items it has
taken from the source the least number of items of which as many come out. And when a limit among
the operations has let all its items through, no more is taken from the source, and the chain ends
as the operations behind the limit do on the items that it passed on. -/
theorem chain_takes_what_it_needs (e : ε) (item? : Nat → Option α)
    (ops : List (Operation ε α)) :
    ((source item? 0 : Seq ε α).chain ops).pulled = 0
    ∧ (∀ items, (∃ fuel, (((source item? 0).chain ops).take e fuel items.length).1 = items) ↔
        ∃ depth, items <+:
          (Operation.onAll e depth ops ((source item? 0).portion e depth)).items)
    ∧ (∀ fuel k, (((source item? 0).chain ops).take e fuel k).1.length = k →
        IsLeast {m | ∃ fuel, (((source (firstOf item? m) 0).chain ops).take e fuel k).1.length = k}
          (((source item? 0).chain ops).take e fuel k).2.pulled)
    ∧ ∀ before n after, ops = before ++ .limit n :: after →
        ∀ handed driven, Run e ((source item? 0).chain ops) handed driven →
          ∃ passed u, Run e ((source item? 0).chain before) passed u
            ∧ passed.length ≤ n
            ∧ driven.beneath? after.length = some (limit (n - passed.length) u)
            ∧ (passed.length = n →
                Settled e ((source item? 0).chain ops) driven after passed) := by
  refine ⟨pulled_chain ops _, fun items => ?_, fun fuel k h => ?_, ?_⟩
  · rw [take_iff_portion]
    constructor
    · rintro ⟨n, hn⟩
      exact ⟨n, hn.trans (portion_chain ops n _).prefix_items⟩
    · rintro ⟨depth, hd⟩
      obtain ⟨n, hn⟩ := within_portion_chain ops depth depth (source item? 0)
      exact ⟨n, hd.trans hn.prefix_items⟩
  · have hleast := pulled_is_least (pulled_chain ops (source item? 0)) h
    simpa only [chain_onSource, chain_items?, onSource, items?] using hleast
  · rintro before n after rfl handed driven hdriven
    rw [chain_append, chain_cons] at hdriven ⊢
    obtain ⟨v, passed, hbeneath, hrun⟩ := hdriven.beneath (chain_beneath after _)
    obtain ⟨hle, u, rfl, hpassed⟩ := hrun.of_limit
    refine ⟨passed, u, hpassed, hle, hbeneath, ?_⟩
    rintro rfl
    rw [Nat.sub_self] at hbeneath hrun
    exact settled_of_limit hdriven hbeneath hrun

/-- Of all numbers, the odd ones up to a limit of two, each taken twice: the first three items
need four numbers, after which nothing more is taken. -/
theorem third_item_needs_four_numbers :
    let ops : List (Operation Unit Nat) :=
      [.filter (fun _ a => a % 2 == 1), .limit 2, .flatten (fun _ a => ofList [a, a])]
    let chain := (source some 0).chain ops
    chain.pulled = 0
    ∧ (chain.take () 10 3).1 = [1, 1, 3]
    ∧ (∃ depth, [1, 1, 3] <+:
        (Operation.onAll () depth ops ((source some 0).portion () depth)).items)
    ∧ IsLeast {m | ∃ fuel, (((source (firstOf some m) 0).chain ops).take () fuel 3).1.length = 3} 4
    ∧ ∃ left, Yields () (chain.take () 10 3).2 left := by
  intro ops chain
  obtain ⟨hbuilt, hlists, hleast, hlimit⟩ := chain_takes_what_it_needs () some ops
  have hthree : (chain.take () 10 3).1 = [1, 1, 3] := by decide
  have hcount : (chain.take () 10 3).1.length = 3 := congrArg List.length hthree
  obtain ⟨passed, u, -, hle, hbeneath, hsettled⟩ :=
    hlimit [.filter (fun _ a => a % 2 == 1)] 2 [.flatten (fun _ a => ofList [a, a])] rfl _ _
      (take_run hcount)
  -- the state that the three items lead to still holds the limit, with nothing left of it
  have hused : limit (2 - passed.length) u = limit 0 _ := Option.some.inj hbeneath.symm
  obtain ⟨hleft, -⟩ := limit.inj hused
  refine ⟨hbuilt, hthree, (hlists [1, 1, 3]).mp ⟨10, hthree⟩, hleast 10 3 hcount,
    (hsettled (by omega)).ends ?_⟩
  rintro expand hm a
  obtain rfl : expand = fun _ a => ofList [a, a] := by simpa using hm
  exact ⟨[a, a], yields_ofList () [a, a]⟩

end Chains

end Seq

end PropertyGraph
