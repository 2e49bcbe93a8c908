import PropertyGraph.Proofs.JsonDepth
import PropertyGraph.Proofs.QueryText
import PropertyGraph.Store.SnapshotJson

namespace PropertyGraph

open Document

section Keyed

variable {α : Type} {read : Document → Option α}

/-- A keyed map is read from members with its keys in their order, if each value is. -/
theorem Document.map?_ofJson {m : OrderedMap String α} {members : List (String × Json)}
    (h : List.Forall₂ (fun e r => e.1 = r.1 ∧ read (ofJson r.2) = some e.2) m.entries members) :
    map? read (ofJson (.object members)) = some m := by
  have hread : (ofEntries members).mapM (fun r => (read r.2).map (fun a => (r.1, a))) =
      some m.entries := by
    rw [mapM_eq_some_iff, ofEntries_eq_mapValues, Entries.mapValues, List.forall₂_map_left_iff]
    refine h.flip.imp ?_
    rintro ⟨key, j⟩ ⟨_, a⟩ ⟨rfl, ha⟩
    exact Option.map_eq_some_iff.mpr ⟨a, ha, rfl⟩
  rw [ofJson, map?, hread, Option.map_some, OrderedMap.ofList_entries]

theorem OrderedMap.map?_toJson {f : α → Json} (hf : ∀ a, read (ofJson (f a)) = some a)
    (m : OrderedMap String α) : Document.map? read (ofJson (m.toJson f)) = some m := by
  refine Document.map?_ofJson ?_
  rw [List.forall₂_map_right_iff, List.forall₂_same]
  exact fun e _ => ⟨rfl, hf e.2⟩

theorem Document.list?_strings (names : List String) :
    list? string? (ofJson (.array (names.map .string))) = some names := by
  rw [ofJson, ofItems_eq_map, list?, mapM_eq_some_iff, List.forall₂_map_left_iff,
    List.forall₂_map_left_iff, List.forall₂_same]
  exact fun _ _ => rfl

theorem Adjacency.ofDocument?_toJson (a : Adjacency) : ofDocument? (ofJson a.toJson) = some a :=
  OrderedMap.map?_toJson list?_strings a

theorem OrderedSet.ofDocument?_toJson (s : OrderedSet String) :
    ofDocument? (ofJson s.toJson) = some s := by
  rw [OrderedSet.ofDocument?, OrderedSet.toJson, list?_strings, Option.map_some,
    OrderedSet.ofList_elems]

end Keyed

namespace Json

/-- An object with each of its values in another order. -/
theorem Reordered.object {members others : List (String × Json)}
    (h : List.Forall₂ (fun m o => m.1 = o.1 ∧ m.2.Reordered o.2) members others) :
    (Json.object members).Reordered (.object others) := by
  have hbehind : ∀ before : List (String × Json),
      (Json.object (before ++ members)).Reordered (.object (before ++ others)) := by
    induction h with
    | nil => exact fun before => .refl _
    | @cons m o members others hm _ ih =>
      obtain ⟨key, j⟩ := m
      obtain ⟨key', k⟩ := o
      obtain ⟨rfl, hjk⟩ := hm
      intro before
      refine .trans (.member hjk key before members) ?_
      rw [List.append_cons before (key, k) members, List.append_cons before (key, k) others]
      exact ih (before ++ [(key, k)])
  exact hbehind []

theorem plain_strings (names : List String) : (array (names.map .string)).Plain :=
  plain_array (List.forall_mem_map.mpr (fun name _ => plain_string name))

/-- A keyed map is written plainly if each of its values is. -/
theorem plain_keyed {α : Type} {f : α → Json} {m : OrderedMap String α}
    (h : ∀ e ∈ m.entries, (f e.2).Plain) : (m.toJson f).Plain := by
  refine plain_object ?_ (List.forall_mem_map.mpr h)
  rw [List.map_map]
  exact m.nodup

end Json

theorem Document.Spells.string?_eq {d : Document} {s : String} (h : d.Spells (.string s)) :
    d.string? = some s := by
  rw [h.eq_string]
  rfl

namespace Vertex

/-- The numbers among the properties are finite. Maps list their entries by ascending key. -/
def Canonical (v : Vertex) : Prop := (Value.map v.properties).Canonical

variable {v : Vertex}

theorem Canonical.plain (h : v.Canonical) : v.toJson.Plain := by
  refine Json.plain_object (by simp) ?_
  simp only [List.forall_mem_cons, List.not_mem_nil, false_imp_iff, implies_true, and_true]
  exact ⟨Json.plain_string _, Json.plain_string _, Value.Canonical.plain h⟩

/-- Whatever spells a canonical vertex is read as the vertex. -/
theorem Canonical.ofDocument?_eq (h : v.Canonical) {d : Document} (hd : d.Spells v.toJson) :
    ofDocument? d = some v := by
  obtain ⟨members, rfl, hmembers⟩ := hd.eq_object (by simp)
  obtain ⟨fields, hknown, hfields⟩ := hmembers.known?_eq ["id", "type", "properties"]
  have hid : required? "id" string? fields = some v.id :=
    hfields.required?_eq (by decide) rfl (fun _ => Spells.string?_eq)
  have htype : required? "type" string? fields = some v.type :=
    hfields.required?_eq (by decide) rfl (fun _ => Spells.string?_eq)
  have hproperties : required? "properties" Properties.ofDocument? fields = some v.properties :=
    hfields.required?_eq (by decide) rfl (fun d hd => by
      rw [Properties.ofDocument?, Value.Canonical.ofDocument?_eq h hd]
      rfl)
  simp only [ofDocument?, fields?, hknown, hid, htype, hproperties, Option.bind_eq_bind,
    Option.bind_some, Option.pure_def]

end Vertex

namespace Edge

theorem plain_toJson (e : Edge) : e.toJson.Plain := by
  refine Json.plain_object (by simp) ?_
  simp [Json.plain_string]

/-- Whatever spells an edge is read as the edge. -/
theorem ofDocument?_eq {e : Edge} {d : Document} (hd : d.Spells e.toJson) :
    ofDocument? d = some e := by
  obtain ⟨members, rfl, hmembers⟩ := hd.eq_object (by simp)
  obtain ⟨fields, hknown, hfields⟩ := hmembers.known?_eq ["origin", "target", "type"]
  have horigin : required? "origin" string? fields = some e.origin :=
    hfields.required?_eq (by decide) rfl (fun _ => Spells.string?_eq)
  have htarget : required? "target" string? fields = some e.target :=
    hfields.required?_eq (by decide) rfl (fun _ => Spells.string?_eq)
  have htype : required? "type" string? fields = some e.type :=
    hfields.required?_eq (by decide) rfl (fun _ => Spells.string?_eq)
  simp only [ofDocument?, fields?, hknown, horigin, htarget, htype, Option.bind_eq_bind,
    Option.bind_some, Option.pure_def]

end Edge

namespace Event

def vertices : Event → List Vertex
  | createNode v => [v]
  | updateNode previous current => [previous, current]
  | deleteNode v _ => [v]
  | _ => []

def Canonical (event : Event) : Prop := ∀ v ∈ event.vertices, v.Canonical

/-- What is written beside the kind. -/
def members : Event → List (String × Json)
  | createNode v => [("vertex", v.toJson)]
  | updateNode previous current => [("previous", previous.toJson), ("current", current.toJson)]
  | deleteNode v edges => [("vertex", v.toJson), ("edges", .array (edges.map Edge.toJson))]
  | makeEdge e => [("edge", e.toJson)]
  | deleteEdge e => [("edge", e.toJson)]

variable {event : Event}

theorem toJson_eq (event : Event) :
    event.toJson = .object (("kind", .string event.kind.name) :: event.members) := by
  cases event <;> rfl

theorem keys_members (event : Event) : event.members.map Prod.fst = event.kind.fields := by
  cases event <;> rfl

theorem ofName?_name (kind : Kind) : Kind.ofName? kind.name = some kind := by
  cases kind <;> rfl

theorem kind_not_mem_fields (kind : Kind) : "kind" ∉ kind.fields := by
  cases kind <;> decide

theorem nodup_fields (kind : Kind) : kind.fields.Nodup := by
  cases kind <;> decide

theorem nodup_keys (event : Event) :
    ((("kind", Json.string event.kind.name) :: event.members).map Prod.fst).Nodup := by
  rw [List.map_cons, keys_members]
  exact List.nodup_cons.mpr ⟨kind_not_mem_fields event.kind, nodup_fields event.kind⟩

theorem Canonical.plain (h : event.Canonical) : event.toJson.Plain := by
  rw [toJson_eq]
  refine Json.plain_object event.nodup_keys (List.forall_mem_cons.mpr ⟨Json.plain_string _, ?_⟩)
  cases event with
  | createNode v => exact List.forall_mem_singleton.mpr (h v (by simp [vertices])).plain
  | updateNode previous current =>
    exact List.forall_mem_cons.mpr ⟨(h previous (by simp [vertices])).plain,
      List.forall_mem_singleton.mpr (h current (by simp [vertices])).plain⟩
  | deleteNode v edges =>
    exact List.forall_mem_cons.mpr ⟨(h v (by simp [vertices])).plain,
      List.forall_mem_singleton.mpr
        (Json.plain_array (List.forall_mem_map.mpr (fun e _ => e.plain_toJson)))⟩
  | makeEdge e => exact List.forall_mem_singleton.mpr e.plain_toJson
  | deleteEdge e => exact List.forall_mem_singleton.mpr e.plain_toJson

/-- The kind is read first. It decides which of the other members are fields. -/
theorem tagged?_eq {members : List (String × Document)}
    (h : SpellsMembers members (("kind", .string event.kind.name) :: event.members)) :
    ∃ fields, tagged? (.object members) = some (event.kind, fields)
      ∧ FieldsSpell event.kind.fields fields event.members := by
  obtain ⟨kindFields, hkind, hspell⟩ := h.known?_eq ["kind"]
  obtain ⟨fields, hknown, hfields⟩ := h.known?_eq event.kind.fields
  have hname : required? "kind" string? kindFields = some event.kind.name :=
    hspell.required?_eq (by decide) rfl (fun _ => Spells.string?_eq)
  have hother : ∀ {name : String}, name ∈ event.kind.fields →
      Entries.get? name (("kind", Json.string event.kind.name) :: event.members) =
        Entries.get? name event.members := by
    rintro name hn
    refine if_neg ?_
    rintro rfl
    exact kind_not_mem_fields event.kind hn
  refine ⟨fields, ?_, fun hn hj => hfields.present hn ((hother hn).trans hj),
    fun hn hj => hfields.absent hn ((hother hn).trans hj)⟩
  simp only [tagged?, hkind, hname, ofName?_name, hknown, Option.bind_eq_bind, Option.bind_some,
    Option.pure_def]

/-- Whatever spells a canonical event is read as the event. -/
theorem Canonical.ofDocument?_eq (h : event.Canonical) {d : Document}
    (hd : d.Spells event.toJson) : ofDocument? d = some event := by
  have hreadable : d.readable = true := by rw [readable, hd.denotes, Option.isSome_some]
  rw [toJson_eq] at hd
  obtain ⟨members, rfl, hmembers⟩ := hd.eq_object event.nodup_keys
  obtain ⟨fields, htagged, hfields⟩ := tagged?_eq hmembers
  have hfield : ∀ {α : Type} {read : Document → Option α} {name : String} {j : Json} {a : α},
      Entries.get? name event.members = some j → (∀ d : Document, d.Spells j → read d = some a) →
      required? name read fields = some a := by
    intro α read name j a hj hread
    have hn : name ∈ event.kind.fields :=
      keys_members event ▸ List.mem_map_of_mem (Entries.mem_of_get?_eq_some hj)
    exact hfields.required?_eq hn hj hread
  have hvertex : ∀ {name : String} {v : Vertex}, v ∈ event.vertices →
      Entries.get? name event.members = some v.toJson →
      required? name Vertex.ofDocument? fields = some v :=
    fun hv hj => hfield hj (fun _ => (h _ hv).ofDocument?_eq)
  unfold ofDocument?
  simp only [hreadable, htagged, Bool.not_true, Bool.false_eq_true, if_false,
    Option.bind_eq_bind, Option.bind_some, Option.pure_def]
  cases event with
  | createNode v =>
    have hv : required? "vertex" Vertex.ofDocument? fields = some v :=
      hvertex List.mem_cons_self rfl
    simp only [kind, hv, Option.bind_some]
  | updateNode previous current =>
    have hprevious : required? "previous" Vertex.ofDocument? fields = some previous :=
      hvertex List.mem_cons_self rfl
    have hcurrent : required? "current" Vertex.ofDocument? fields = some current :=
      hvertex (List.mem_cons_of_mem _ List.mem_cons_self) rfl
    simp only [kind, hprevious, hcurrent, Option.bind_some]
  | deleteNode v edges =>
    have hv : required? "vertex" Vertex.ofDocument? fields = some v :=
      hvertex List.mem_cons_self rfl
    have hedges : required? "edges" (list? Edge.ofDocument?) fields = some edges :=
      hfield rfl (fun _ hd => list?_eq hd (fun _ _ _ => Edge.ofDocument?_eq))
    simp only [kind, hv, hedges, Option.bind_some]
  | makeEdge e | deleteEdge e =>
    have hedge : required? "edge" Edge.ofDocument? fields = some e :=
      hfield rfl (fun _ => Edge.ofDocument?_eq)
    simp only [kind, hedge, Option.bind_some]

theorem parse?_laidOut (h : event.Canonical) (hdepth : event.toJson.depth ≤ depthLimit)
    (hdoubles : ∀ x ∈ event.toJson.doubles, x.Survives) {k : Json}
    (hk : event.toJson.Reordered k) {text : String} (ht : k.LaidOut text) :
    parse? text = some event := by
  obtain ⟨d, hd, hs⟩ := exists_spells_of_laidOut (h.plain.fits hdepth)
    (fun x hx => (hdoubles x hx).readsBack) h.plain.distinct hk ht
  rw [parse?, hd, Option.bind_some, h.ofDocument?_eq hs]

end Event

namespace Snapshot

def Canonical (s : Snapshot) : Prop := ∀ v ∈ s.vertices.values, v.Canonical

/-- What is printed for a snapshot: the four maps in their order, and each vertex with its
properties in any order. -/
inductive Printed (s : Snapshot) : Json → Prop
  | mk {records : List (String × Json)}
    (h : List.Forall₂ (fun e r => e.1 = r.1 ∧ e.2.toJson.Reordered r.2) s.vertices.entries
      records) :
    Printed s (.object [("vertices", .object records),
      ("edges_from", s.outgoing.toJson Adjacency.toJson),
      ("edges_to", s.incoming.toJson Adjacency.toJson),
      ("type_index", s.typeIndex.toJson OrderedSet.toJson)])

variable {s : Snapshot} {k : Json}

theorem printed_toJson (s : Snapshot) : s.Printed s.toJson := by
  refine .mk ?_
  rw [List.forall₂_map_right_iff, List.forall₂_same]
  exact fun e _ => ⟨rfl, .refl _⟩

theorem Printed.reordered (h : s.Printed k) : s.toJson.Reordered k := by
  cases h with
  | mk h =>
    refine .member (.object ?_) "vertices" [] _
    rw [List.forall₂_map_left_iff]
    exact h

theorem Canonical.plain (h : s.Canonical) : s.toJson.Plain := by
  have hvertices : (s.vertices.toJson Vertex.toJson).Plain :=
    Json.plain_keyed (fun e he => (h e.2 (List.mem_map_of_mem he)).plain)
  have hside : ∀ side : OrderedMap VertexId Adjacency, (side.toJson Adjacency.toJson).Plain :=
    fun side => Json.plain_keyed (fun e _ =>
      Json.plain_keyed (fun types _ => Json.plain_strings types.2))
  have hindex : (s.typeIndex.toJson OrderedSet.toJson).Plain :=
    Json.plain_keyed (fun e _ => Json.plain_strings e.2.elems)
  refine Json.plain_object (by simp) ?_
  simp only [List.forall_mem_cons, List.not_mem_nil, false_imp_iff, implies_true, and_true]
  exact ⟨hvertices, hside s.outgoing, hside s.incoming, hindex⟩

/-- A canonical snapshot is read from whatever is printed for it. -/
theorem Canonical.ofDocument?_printed (h : s.Canonical) (hk : s.Printed k) :
    ofDocument? (ofJson k) = some s := by
  cases hk with
  | @mk records hrecords =>
    have hvertices : map? Vertex.ofDocument? (ofJson (.object records)) = some s.vertices := by
      refine map?_ofJson ?_
      have hcanonical : ∀ e ∈ s.vertices.entries, e.2.Canonical :=
        fun e he => h e.2 (List.mem_map_of_mem he)
      have hboth := (List.forall₂_and_left _ _).mpr ⟨hcanonical, hrecords⟩
      refine hboth.imp ?_
      rintro e r ⟨hv, hkey, hr⟩
      exact ⟨hkey, hv.ofDocument?_eq (spells_of_reordered hr hv.plain.distinct)⟩
    have houtgoing := OrderedMap.map?_toJson Adjacency.ofDocument?_toJson s.outgoing
    have hincoming := OrderedMap.map?_toJson Adjacency.ofDocument?_toJson s.incoming
    have hindex := OrderedMap.map?_toJson OrderedSet.ofDocument?_toJson s.typeIndex
    rw [ofJson, ofEntries_eq_mapValues]
    simp [ofDocument?, fields?, known?, required?, Entries.mapValues, Entries.get?, hvertices,
      houtgoing, hincoming, hindex]

theorem parse?_laidOut (h : s.Canonical) (hdepth : s.toJson.depth ≤ depthLimit)
    (hdoubles : ∀ x ∈ s.toJson.doubles, x.Survives) (hk : s.Printed k) {text : String}
    (ht : k.LaidOut text) : parse? text = some s := by
  have hread := Document.parse?_laidOut (hk.reordered.fits (h.plain.fits hdepth))
    (fun x hx => (hdoubles x (hk.reordered.mem_doubles hx)).readsBack) ht
  rw [parse?, hread, Option.bind_some, h.ofDocument?_printed hk]

end Snapshot

/-- What is stored survives its text. A snapshot, or an event, with finite doubles that each survive
the conversion of their own digits, and nested no deeper than the reader goes, is read back from its
text: equal in every value, and for a snapshot with the order of its maps, its sets and its lists of
types. So it is from any text with the properties of vertices in other orders, and for an event with
the members of any object in other orders, and from texts with blanks between the tokens. -/
theorem stored_survives_text :
    (∀ s : Snapshot, s.Canonical → s.toJson.depth ≤ depthLimit →
      (∀ x ∈ s.toJson.doubles, x.Survives) →
      Snapshot.parse? s.text = some s
        ∧ ∀ (k : Json) (text : String), s.Printed k → k.LaidOut text →
          Snapshot.parse? text = some s)
      ∧ ∀ event : Event, event.Canonical → event.toJson.depth ≤ depthLimit →
        (∀ x ∈ event.toJson.doubles, x.Survives) →
        Event.parse? event.toJson.text = some event
          ∧ ∀ (k : Json) (text : String), event.toJson.Reordered k → k.LaidOut text →
            Event.parse? text = some event := by
  constructor
  · intro s h hdepth hdoubles
    exact ⟨Snapshot.parse?_laidOut h hdepth hdoubles s.printed_toJson (Json.laidOut_text _),
      fun k text hk ht => Snapshot.parse?_laidOut h hdepth hdoubles hk ht⟩
  · intro event h hdepth hdoubles
    exact ⟨Event.parse?_laidOut h hdepth hdoubles (.refl _) (Json.laidOut_text _),
      fun k text hk ht => Event.parse?_laidOut h hdepth hdoubles hk ht⟩

/-- A gauge whose readings are minus zero, two as a double and as an integer, and 10^19, which
is beyond the integers of 64 bits. -/
def gauge : Vertex :=
  ⟨"g1", "Gauge", [("label", .string "1.0"), ("readings", .list [
    .double (.ofMagnitude true 0), .double (.ofMagnitude false 0x4000000000000000), .int 2,
    .double (.ofMagnitude false 0x43E158E460913D00), .map [("gone", .null), ("on", .bool true)]])]⟩

/-- Two vertices that are not listed by ascending id, and two types of edges between them. -/
def gaugeSnapshot : Snapshot where
  vertices := ⟨[("g1", gauge), ("a0", ⟨"a0", "Site", []⟩)], by decide⟩
  outgoing := ⟨[("g1", ⟨[("a0", ["stands", "at"])], by decide⟩), ("a0", .empty)], by decide⟩
  incoming := ⟨[("a0", ⟨[("g1", ["stands", "at"])], by decide⟩), ("g1", .empty)], by decide⟩
  typeIndex := ⟨[("Site", ⟨["a0"], by decide⟩), ("Gauge", ⟨["g1"], by decide⟩)], by decide⟩

/-- The deletion of the gauge, which takes an edge along. -/
def gaugeDeletion : Event := .deleteNode gauge [⟨"g1", "a0", "at"⟩]

theorem canonical_gauge : gauge.Canonical := by
  have hreadings : (Value.list [.double (.ofMagnitude true 0),
      .double (.ofMagnitude false 0x4000000000000000), .int 2,
      .double (.ofMagnitude false 0x43E158E460913D00),
      .map [("gone", .null), ("on", .bool true)]]).Canonical := by
    refine .list ?_
    simp only [List.forall_mem_cons, List.not_mem_nil, false_imp_iff, implies_true, and_true]
    refine ⟨.double (by decide), .double (by decide), .int 2, .double (by decide), ?_⟩
    exact .map (List.pairwise_pair.mpr (by decide)) (List.forall_mem_cons.mpr
      ⟨.null, List.forall_mem_singleton.mpr (.bool true)⟩)
  exact .map (List.pairwise_pair.mpr (by decide)) (List.forall_mem_cons.mpr
    ⟨.string "1.0", List.forall_mem_singleton.mpr hreadings⟩)

theorem canonical_gaugeSnapshot : gaugeSnapshot.Canonical :=
  List.forall_mem_cons.mpr ⟨canonical_gauge,
    List.forall_mem_singleton.mpr (.map .nil (List.forall_mem_nil _))⟩

/-- Both survive, and the deletion also where its kind is written last. -/
theorem gaugeSnapshot_survives_text :
    gaugeSnapshot.Canonical ∧ gaugeSnapshot.toJson.depth ≤ depthLimit
      ∧ (∀ x ∈ gaugeSnapshot.toJson.doubles, x.Survives)
      ∧ Snapshot.parse? gaugeSnapshot.text = some gaugeSnapshot
      ∧ gaugeDeletion.Canonical ∧ gaugeDeletion.toJson.depth ≤ depthLimit
      ∧ (∀ x ∈ gaugeDeletion.toJson.doubles, x.Survives)
      ∧ Event.parse? ((Json.object [("edges", .array [(Edge.mk "g1" "a0" "at").toJson]),
          ("vertex", gauge.toJson), ("kind", .string "delete-node")]).text ++ "\n") =
        some gaugeDeletion := by
  have hdepth : gaugeSnapshot.toJson.depth ≤ depthLimit := by decide
  have hdoubles : ∀ x ∈ gaugeSnapshot.toJson.doubles, x.Survives := by decide +kernel
  have hdeletion : gaugeDeletion.Canonical := List.forall_mem_singleton.mpr canonical_gauge
  have hdepth' : gaugeDeletion.toJson.depth ≤ depthLimit := by decide
  have hdoubles' : ∀ x ∈ gaugeDeletion.toJson.doubles, x.Survives := by decide +kernel
  obtain ⟨hsnapshot, hevent⟩ := stored_survives_text
  refine ⟨canonical_gaugeSnapshot, hdepth, hdoubles,
    (hsnapshot _ canonical_gaugeSnapshot hdepth hdoubles).1, hdeletion, hdepth', hdoubles',
    (hevent _ hdeletion hdepth' hdoubles').2 _ _ (.members (List.reverse_perm _).symm) ?_⟩
  rw [Json.LaidOut, String.toList_append]
  exact (Json.laidOut_text _).append_blanks (by simp [isBlank])

end PropertyGraph
