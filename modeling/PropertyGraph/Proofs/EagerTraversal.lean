import PropertyGraph.Proofs.QueryMeaning

namespace PropertyGraph

namespace Hop

/-- The vertices that the filter keeps, which are all if there is no filter. -/
def kept (h : Hop) (vertices : List Vertex) : List Vertex :=
  match h.filter with
  | none => vertices
  | some keep => vertices.filter keep

/-- What lies one hop before a level: of each id in turn the predecessors that the filter keeps, up
to the limit, and of all these together each id where it first occurs. -/
def before (s : Store) (h : Hop) (level : List VertexId) : List VertexId :=
  (level.flatMap (fun id =>
    (Selection.cut h.limit (h.kept (s.predecessors h.name id))).map Vertex.id)).eraseDups

/-- The hop as a traversal keeps it: a limit of zero has been dropped. -/
def declared (h : Hop) : Hop := ⟨h.name, h.filter, h.limit.filter (fun n => 0 < n)⟩

theorem filter_passes (h : Hop) (vertices : List Vertex) :
    vertices.filter h.passes = h.kept vertices := by
  have hall : h.passes = fun v => h.filter.all (fun keep => keep v) := rfl
  rw [hall, kept]
  cases h.filter with
  | none => exact List.filter_true vertices
  | some keep => rfl

/-- From one vertex a hop reaches the predecessors that are kept, up to its limit. -/
theorem reach_declared (s : Store) (h : Hop) (id : VertexId) :
    h.declared.reach s id =
      (Selection.cut h.limit (h.kept (s.predecessors h.name id))).map Vertex.id := by
  rw [reach, cut_filter_pos h.declared h.limit rfl, Selection.map_cut, ← filter_passes,
    ← arrivals_eq]
  rfl

end Hop

namespace Traversal

def ofHops (hops : List Hop) : Traversal :=
  hops.foldl (fun t h => (t.via h.name).constrain h.filter h.limit) start

/-- The level behind all hops. -/
def eager (s : Store) (hops : List Hop) (seeds : List VertexId) : List VertexId :=
  hops.foldr (Hop.before s) seeds

theorem hops_ofHops (hops : List Hop) : (ofHops hops).hops = hops.map Hop.declared := by
  have hfold : ∀ t : Traversal,
      (hops.foldl (fun t h => (t.via h.name).constrain h.filter h.limit) t).hops =
        t.hops ++ hops.map Hop.declared := by
    induction hops with
    | nil => exact fun t => (List.append_nil _).symm
    | cons h hops ih =>
      intro t
      rw [List.foldl_cons, ih, hops_constrain_via, List.append_assoc, List.map_cons]
      rfl
  exact hfold start

theorem reach_ofHops (s : Store) (hops : List Hop) (seeds : List VertexId) :
    (ofHops hops).reach s seeds = eager s hops seeds := by
  rw [reach, hops_ofHops, eager]
  induction hops with
  | nil => rfl
  | cons h hops ih =>
    rw [List.map_cons, List.foldr_cons, List.foldr_cons, ih, firstOccurrences_eq_eraseDups,
      Hop.before, funext (h.reach_declared s)]

end Traversal

namespace Workspace

/-- While nothing changes, a traversal hands out, up to as many as are asked for, what the eager
evaluation finds: the records of the last level, or through a registry the instances of those whose
types are registered. Without hops the seeds are that level, with those that repeat. -/
theorem traversal_delivers_eager_list (w : Workspace) (hops : List Hop) (seeds : List VertexId) :
    (∀ g, (Cursor.ofTraversal w (.record g) (Traversal.ofHops hops) (.ofList seeds)).Delivers w
      (((Traversal.eager (w.store g) hops seeds).filterMap (w.store g).vertex?).map .record)) ∧
    ∀ r, (Cursor.ofTraversal w (.projected r) (Traversal.ofHops hops) (.ofList seeds)).Delivers w
      (((Traversal.eager (w.store (w.graphOf r)) hops seeds).filterMap
        (w.store (w.graphOf r)).vertex?).filterMap
          (fun v => (w.model? r v.type).map (fun m => .viewed ⟨r, v.id, m⟩))) := by
  refine ⟨fun g => ?_, fun r => ?_⟩
  · rw [← Traversal.reach_ofHops]
    exact (w.delivers_reached g (Traversal.ofHops hops) seeds).1
  · rw [← Traversal.reach_ofHops]
    exact (w.delivers_reached (w.graphOf r) (Traversal.ofHops hops) seeds).2 r rfl

/-- The limit counts for each vertex of a level by itself, and before what is repeated is dropped:
here the second seed has used its limit up on an id that the first one had given. -/
example :
    let s := Store.empty.run [.perform (.setVertex "a" "T" []), .perform (.setVertex "b" "T" []),
      .perform (.setVertex "c" "T" []), .perform (.setEdge ⟨"a", "b", "to"⟩),
      .perform (.setEdge ⟨"a", "c", "to"⟩), .perform (.setEdge ⟨"b", "c", "to"⟩)]
    Traversal.eager s [⟨"to", none, some 1⟩] ["b", "c"] = ["a"] ∧
      Traversal.eager s [⟨"to", none, some 0⟩] ["b", "c"] = ["a", "b"] ∧
      Traversal.eager s [] ["b", "b"] = ["b", "b"] := by
  decide

end Workspace

end PropertyGraph
