import PropertyGraph.Proofs.Numbering
import PropertyGraph.Proofs.Paths
import PropertyGraph.Query.Engine

namespace PropertyGraph

section Limits

variable {ε α : Type} {e : ε} {s : Seq ε α} {items : List α}

/-- The sequence up to a limit. A limit of zero is no limit. -/
def Seq.upTo (limit : Option Nat) (s : Seq ε α) : Seq ε α :=
  match limit with
  | none => s
  | some 0 => s
  | some n => s.limit n

theorem Seq.Yields.upTo (h : s.Yields e items) (limit : Option Nat) :
    (s.upTo limit).Yields e (Selection.cut limit items) := by
  cases limit with
  | none => exact h
  | some n =>
    cases n with
    | zero => exact h
    | succ n => exact h.limit (n + 1)

end Limits

namespace Query

/-- The sequence that the last source of a query opens at a registry. -/
def openSeeds (w : Workspace) (r : RegistryId) : Source → Except Error (Seq Workspace VertexId)
  | .name id =>
    if (w.store (w.graphOf r)).hasVertex id then .ok (.once id) else .error (.missingSeed id)
  | .seed type filter limit => do
    let m ← w.factory r type
    let filter ← orFault (filter.mapM Filter.compile)
    return (w.find r m filter).upTo limit
  | .hop name _ _ => .error (.badQuery (.hopAsSeed name))

/-- A query as it is driven: what to copy from a vertex, and a cursor for the vertices to copy from.
Nothing has been looked up yet but the seed. -/
def opened (w : Workspace) (r : RegistryId) (q : Query) :
    Except Error (Selection Filter × Cursor) :=
  match q.sources.getLast? with
  | none => .error (.badQuery .noSeed)
  | some last => do
    let selection ← orFault q.select.compile
    let t ← orFault (traversal q.sources.dropLast)
    let start ← openSeeds w r last
    return (selection, .ofTraversal w (.record (w.graphOf r)) t start)

end Query

namespace Workspace

variable {w : Workspace} {r : RegistryId}

/-- The models of a registry lie under their types. -/
def ModelsFiled (w : Workspace) (r : RegistryId) : Prop :=
  ∀ type m, w.model? r type = some m → m.type = type

theorem modelsFiled_addRegistry (w : Workspace) (g : GraphId) (c : GraphConfig) :
    (w.addRegistry g c).1.ModelsFiled (w.addRegistry g c).2 := by
  intro type m hm
  have hr : (w.addRegistry g c).1.registry (w.addRegistry g c).2 =
      ⟨g, .empty, c.strategy, 0⟩ := by
    simp [addRegistry, registry]
  rw [model?, hr] at hm
  cases hm

theorem ModelsFiled.register (h : w.ModelsFiled r) (q : RegistryId) (m : Model) :
    (w.register q m).ModelsFiled r := by
  intro type n hn
  rw [model?, Workspace.register, registry_withRegistry] at hn
  split at hn
  · next hq =>
    rw [OrderedMap.get?_insert] at hn
    split at hn
    · next ht =>
      cases hn
      exact ht.symm
    · rw [hq.1] at hn
      exact h type n hn
  · exact h type n hn

theorem models_mint (w : Workspace) (q r : RegistryId) :
    ((w.mint q).1.registry r).models = (w.registry r).models := by
  unfold mint
  dsimp only
  split
  · rfl
  · rw [registry_withRegistry]
    split
    · next h => rw [h.1]
    · rfl

theorem models_performCall (w : Workspace) (call : ModelCall) (r : RegistryId) :
    ((w.performCall call).1.registry r).models = (w.registry r).models := by
  by_cases hc : ∃ q m properties, call = .create q m properties
  · obtain ⟨q, m, properties, rfl⟩ := hc
    rw [performCall, registry_create, models_mint]
  · obtain ⟨g, ms, -, hcall⟩ :=
      w.makesNone_performCall fun q m properties he => hc ⟨q, m, properties, he⟩
    rw [hcall, registry, registries_performAll, ← registry]

theorem ModelsFiled.afterCalls (h : w.ModelsFiled r) (calls : List ModelCall) :
    (w.afterCalls calls).ModelsFiled r := by
  unfold Workspace.afterCalls
  induction calls generalizing w with
  | nil => exact h
  | cons call rest ih =>
    refine ih fun type m hm => h type m ?_
    rwa [model?, models_performCall] at hm

/-- Driven to its end, the sequence gives the instances that there are now. -/
theorem find_yields (w : Workspace) (r : RegistryId) (m : Model) (filter : Option Filter) :
    (w.find r m filter).Yields w (Query.instances (w.store (w.graphOf r)) m.type filter) := by
  have hall := w.present_yields (w.graphOf r) (some m.type)
  unfold Workspace.find Query.instances
  cases filter with
  | none => simpa using hall
  | some f =>
    exact hall.filter
      (fun later id => ((later.store (w.graphOf r)).vertex? id).any (fun v => f.accepts v))

end Workspace

namespace Query

variable {w : Workspace} {r : RegistryId}

/-- Driven to its end, the sequence that is opened gives the seeds. -/
theorem openSeeds_spec (hm : w.ModelsFiled r) (last : Source) :
    (∃ e, openSeeds w r last = .error e ∧
      seeds (w.store (w.graphOf r)) (w.isRegistered r) last = .error e) ∨
    ∃ start ids, openSeeds w r last = .ok start ∧
      seeds (w.store (w.graphOf r)) (w.isRegistered r) last = .ok ids ∧ start.Yields w ids := by
  cases last with
  | name id =>
    rw [openSeeds, seeds]
    split
    · exact .inr ⟨_, _, rfl, rfl, Seq.yields_ofList w [id]⟩
    · exact .inl ⟨_, rfl, rfl⟩
  | hop name filter limit => exact .inl ⟨_, rfl, rfl⟩
  | seed type filter limit =>
    rw [openSeeds, seeds, Workspace.factory, Workspace.isRegistered]
    cases hmodel : w.model? r type with
    | none => exact .inl ⟨_, rfl, rfl⟩
    | some m =>
      cases hf : orFault (filter.mapM Filter.compile) with
      | error e => exact .inl ⟨e, rfl, rfl⟩
      | ok f =>
        refine .inr ⟨_, _, rfl, rfl, ?_⟩
        rw [← hm type m hmodel]
        exact (w.find_yields r m f).upTo limit

/-- The engine answers with a row for each vertex that the cursor hands out, in its order, and it
refuses what cannot be opened. -/
theorem run_drives_cursor (hm : w.ModelsFiled r) (q : Query) :
    let s := w.store (w.graphOf r)
    (∃ e, q.opened w r = .error e ∧ q.run s (w.isRegistered r) = .error e) ∨
    ∃ selection cursor, ∃ found : List Vertex, q.opened w r = .ok (selection, cursor) ∧
      cursor.Delivers w (found.map .record) ∧
      q.run s (w.isRegistered r) = .ok (found.map (fun v => ⟨selection.project s v⟩)) := by
  intro s
  rw [opened, run]
  cases q.sources.getLast? with
  | none => exact .inl ⟨_, rfl, rfl⟩
  | some last =>
    dsimp only
    cases orFault q.select.compile with
    | error e => exact .inl ⟨e, rfl, rfl⟩
    | ok selection =>
      cases orFault (traversal q.sources.dropLast) with
      | error e => exact .inl ⟨e, rfl, rfl⟩
      | ok t =>
        rcases openSeeds_spec hm last with ⟨e, hopen, hseeds⟩ | ⟨start, ids, hopen, hseeds, hyields⟩
        · rw [hopen, hseeds]
          exact .inl ⟨e, rfl, rfl⟩
        · rw [hopen, hseeds]
          refine .inr ⟨selection, _, _, rfl, ?_, rfl⟩
          rw [List.map_filterMap]
          exact Cursor.delivers_of_yields
            (Traversal.startingWith_yields (fun later => later.store (w.graphOf r)) t hyields)

end Query

end PropertyGraph
