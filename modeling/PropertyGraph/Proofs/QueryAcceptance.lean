import PropertyGraph.Proofs.FilterForm
import PropertyGraph.Proofs.QueryMask

namespace PropertyGraph

/-- The filters of a selection, at any depth. -/
def Selection.filters : Selection Value → List Value
  | properties _ => []
  | connect _ inner filter _ rest => inner.filters ++ filter.toList ++ rest.filters

namespace Source

/-- A source that can be hopped over: it is no seed by type, and its filter can be read. -/
def IsHop : Source → Prop
  | name _ => True
  | hop _ filter _ => ∀ v ∈ filter, Filter.WellFormed v
  | seed _ _ _ => False

def IsSeed (s : Store) (registered : String → Bool) : Source → Prop
  | name id => s.hasVertex id = true
  | hop _ _ _ => False
  | seed type filter _ => registered type = true ∧ ∀ v ∈ filter, Filter.WellFormed v

end Source

/-- A query that is sound up to its last source. -/
structure Query.Prepared (q : Query) (last : Source) : Prop where
  select : ∀ v ∈ q.select.filters, Filter.WellFormed v
  hops : ∀ source ∈ q.sources.dropLast, source.IsHop
  last : q.sources.getLast? = some last

/-- What the last source of a query that is sound up to there makes of the answer. -/
def Source.Decides (s : Store) (registered : String → Bool) (answer : Except Error (List Row)) :
    Source → Prop
  | .hop text _ _ => answer = .error (.badQuery (.hopAsSeed text))
  | .name id =>
    (s.hasVertex id = false → answer = .error (.missingSeed id)) ∧
    (s.hasVertex id = true → ∃ rows, answer = .ok rows)
  | .seed type filter _ =>
    (registered type = false → answer = .error (.unregisteredType type)) ∧
    (registered type = true → (¬ ∀ v ∈ filter, Filter.WellFormed v) →
      ∃ fault, answer = .error (.badQuery fault)) ∧
    (registered type = true → (∀ v ∈ filter, Filter.WellFormed v) → ∃ rows, answer = .ok rows)

theorem mapM_compile_ok_iff (filter : Option Value) :
    (∃ f, filter.mapM Filter.compile = .ok f) ↔ ∀ v ∈ filter, Filter.WellFormed v := by
  cases filter with
  | none => exact iff_of_true ⟨none, rfl⟩ (by simp)
  | some v =>
    simp only [Option.mem_def, Option.some.injEq, forall_eq', ← Filter.compile_ok_iff]
    constructor
    · rintro ⟨_, h⟩
      obtain ⟨f, hf, _⟩ := bind_eq_ok_iff.mp h
      exact ⟨f, hf⟩
    · rintro ⟨f, hf⟩
      exact ⟨some f, bind_eq_ok_iff.mpr ⟨f, hf, rfl⟩⟩

theorem Selection.compile_ok_iff (selection : Selection Value) :
    (∃ compiled, selection.compile = .ok compiled) ↔
      ∀ v ∈ selection.filters, Filter.WellFormed v := by
  induction selection with
  | properties names => exact iff_of_true ⟨_, rfl⟩ (by simp [filters])
  | connect name inner filter limit rest ihInner ihRest =>
    have hfilter := mapM_compile_ok_iff filter
    simp only [Option.mem_def] at hfilter
    simp only [filters, List.mem_append, Option.mem_toList, or_imp, forall_and, ← ihInner,
      ← ihRest, ← hfilter, compile, bind_eq_ok_iff]
    constructor
    · rintro ⟨_, inner, hi, f, hf, rest, hr, _⟩
      exact ⟨⟨⟨inner, hi⟩, f, hf⟩, rest, hr⟩
    · rintro ⟨⟨⟨inner, hi⟩, f, hf⟩, rest, hr⟩
      exact ⟨_, inner, hi, f, hf, rest, hr, rfl⟩

namespace Query

theorem addHop_ok_iff (t : Traversal) (source : Source) :
    (∃ t', addHop t source = .ok t') ↔ source.IsHop := by
  cases source with
  | name text => exact iff_of_true ⟨_, rfl⟩ trivial
  | hop name filter limit =>
    rw [Source.IsHop, ← mapM_compile_ok_iff]
    simp only [addHop, bind_eq_ok_iff]
    constructor
    · rintro ⟨_, f, hf, _⟩
      exact ⟨f, hf⟩
    · rintro ⟨f, hf⟩
      exact ⟨_, f, hf, rfl⟩
  | seed type filter limit => exact iff_of_false (by rintro ⟨_, ⟨⟩⟩) (fun h => h)

theorem foldlM_addHop_ok_iff (t : Traversal) (hops : List Source) :
    (∃ t', hops.foldlM addHop t = .ok t') ↔ ∀ source ∈ hops, source.IsHop := by
  induction hops generalizing t with
  | nil => exact iff_of_true ⟨t, rfl⟩ (by simp)
  | cons source hops ih =>
    simp only [List.foldlM_cons, bind_eq_ok_iff]
    rw [List.forall_mem_cons, ← addHop_ok_iff t]
    constructor
    · rintro ⟨t', next, hnext, hrest⟩
      exact ⟨⟨next, hnext⟩, (ih next).mp ⟨t', hrest⟩⟩
    · rintro ⟨⟨next, hnext⟩, hrest⟩
      obtain ⟨t', ht'⟩ := (ih next).mpr hrest
      exact ⟨t', next, hnext, ht'⟩

theorem orFault_cases {α : Type} (x : Except QueryFault α) :
    (∃ a, x = .ok a ∧ orFault x = .ok a) ∨
      ∃ fault, orFault x = .error (.badQuery fault) := by
  cases x with
  | ok a => exact .inl ⟨a, rfl, rfl⟩
  | error fault => exact .inr ⟨fault, rfl⟩

variable {s : Store} {registered : String → Bool} {q : Query} {last : Source}

/-- The seeds of a prepared query are all that its answer waits for. -/
theorem run_of_prepared (s : Store) (registered : String → Bool) (h : q.Prepared last) :
    ∃ rows : List VertexId → List Row, q.run s registered =
      (seeds s registered last).map rows := by
  obtain ⟨selection, hselection⟩ := (Selection.compile_ok_iff q.select).mpr h.select
  obtain ⟨t, ht⟩ : ∃ t, traversal q.sources.dropLast = .ok t :=
    (foldlM_addHop_ok_iff .start _).mpr h.hops
  refine ⟨fun start => ((t.reach s start).filterMap s.vertex?).map
    (fun v => ⟨selection.project s v⟩), ?_⟩
  rw [run, h.last]
  dsimp only
  rw [hselection, ht]
  cases seeds s registered last <;> rfl

/-- A query that is not prepared is blamed itself. -/
theorem run_of_not_prepared (h : ¬ ∃ last, q.Prepared last) :
    ∃ fault, q.run s registered = .error (.badQuery fault) := by
  rw [run]
  cases hlast : q.sources.getLast? with
  | none => exact ⟨.noSeed, rfl⟩
  | some last =>
    dsimp only
    rcases orFault_cases q.select.compile with ⟨selection, hs, hok⟩ | ⟨fault, hfault⟩
    · rw [hok]
      rcases orFault_cases (traversal q.sources.dropLast) with ⟨t, ht, _⟩ | ⟨fault, hfault⟩
      · exact absurd ⟨last, (Selection.compile_ok_iff _).mp ⟨selection, hs⟩,
          (foldlM_addHop_ok_iff .start _).mp ⟨t, ht⟩, hlast⟩ h
      · exact ⟨fault, by rw [hfault]; rfl⟩
    · exact ⟨fault, by rw [hfault]; rfl⟩

theorem decides_of_prepared (s : Store) (registered : String → Bool) (h : q.Prepared last) :
    last.Decides s registered (q.run s registered) := by
  obtain ⟨rows, hrun⟩ := run_of_prepared s registered h
  rw [hrun]
  cases last with
  | hop name filter limit => rfl
  | name id =>
    refine ⟨fun hid => ?_, fun hid => ⟨rows [id], ?_⟩⟩ <;> rw [seeds, hid] <;> rfl
  | seed type filter limit =>
    refine ⟨fun ht => ?_, fun ht hf => ?_, fun ht hf => ?_⟩
    · rw [seeds, ht]
      rfl
    · rcases orFault_cases (filter.mapM Filter.compile) with ⟨f, hok, _⟩ | ⟨fault, hfault⟩
      · exact absurd ((mapM_compile_ok_iff filter).mp ⟨f, hok⟩) hf
      · exact ⟨fault, by rw [seeds, ht, hfault]; rfl⟩
    · obtain ⟨f, hok⟩ := (mapM_compile_ok_iff filter).mpr hf
      exact ⟨_, by rw [seeds, ht, hok]; rfl⟩

/-- A prepared query has rows exactly if its last source is one that seeds can be taken from. -/
theorem rows_iff_of_prepared (h : q.Prepared last) :
    (∃ rows, q.run s registered = .ok rows) ↔ last.IsSeed s registered := by
  have hdecides := decides_of_prepared s registered h
  cases last with
  | hop name filter limit =>
    refine iff_of_false ?_ (fun h => h)
    rintro ⟨rows, hrows⟩
    cases hdecides.symm.trans hrows
  | name id =>
    refine ⟨fun ⟨rows, hrows⟩ => ?_, hdecides.2⟩
    cases hid : s.hasVertex id with
    | false => cases (hdecides.1 hid).symm.trans hrows
    | true => exact hid
  | seed type filter limit =>
    refine ⟨fun ⟨rows, hrows⟩ => ?_, fun ⟨ht, hf⟩ => hdecides.2.2 ht hf⟩
    cases ht : registered type with
    | false => cases (hdecides.1 ht).symm.trans hrows
    | true =>
      refine ⟨ht, by_contra fun hf => ?_⟩
      obtain ⟨fault, hfault⟩ := hdecides.2.1 ht hf
      cases hfault.symm.trans hrows

end Query

namespace SignedQuery

/-- A signed query is refused for its token, whatever else is wrong with it; then for anything
that is wrong before its last source; then as the last source decides. It has rows in all other
cases and in no others. -/
theorem refused_for_first_fault (secret : List UInt8) (s : Store) (registered : String → Bool)
    (q : SignedQuery) :
    let answer := q.run secret s registered
    (q.isGenuine secret = false → answer = .error .badToken) ∧
    (q.isGenuine secret = true → (¬ ∃ last, q.query.Prepared last) →
      ∃ fault, answer = .error (.badQuery fault)) ∧
    (q.isGenuine secret = true → ∀ last, q.query.Prepared last →
      last.Decides s registered answer) ∧
    ((∃ rows, answer = .ok rows) ↔ q.isGenuine secret = true ∧
      ∃ last, q.query.Prepared last ∧ last.IsSeed s registered) := by
  intro answer
  cases hg : q.isGenuine secret with
  | false =>
    have hanswer : answer = .error .badToken := by
      simp only [answer, SignedQuery.run, verify, hg]
      rfl
    rw [hanswer]
    refine ⟨fun _ => rfl, by rintro ⟨⟩, by rintro ⟨⟩, iff_of_false ?_ ?_⟩
    · rintro ⟨rows, ⟨⟩⟩
    · rintro ⟨⟨⟩, _⟩
  | true =>
    have hanswer : answer = q.query.run s registered := by
      simp only [answer, SignedQuery.run, verify, hg]
      rfl
    rw [hanswer]
    refine ⟨by rintro ⟨⟩, fun _ => Query.run_of_not_prepared,
      fun _ last hlast => Query.decides_of_prepared s registered hlast, ?_, ?_⟩
    · rintro ⟨rows, hrows⟩
      by_cases hprepared : ∃ last, q.query.Prepared last
      · obtain ⟨last, hlast⟩ := hprepared
        exact ⟨rfl, last, hlast, (Query.rows_iff_of_prepared hlast).mp ⟨rows, hrows⟩⟩
      · obtain ⟨fault, hfault⟩ := Query.run_of_not_prepared hprepared
        cases hfault.symm.trans hrows
    · rintro ⟨_, last, hlast, hseed⟩
      exact (Query.rows_iff_of_prepared hlast).mpr hseed

end SignedQuery

end PropertyGraph
