import PropertyGraph.Proofs.JsonDepth
import PropertyGraph.Proofs.Nesting

namespace PropertyGraph

namespace Entries

variable {β : Type}

/-- The value under the key, the last one if the key is repeated. -/
def last? (k : String) (entries : List (String × β)) : Option β := get? k entries.reverse

theorem last?_concat (k : String) (entries : List (String × β)) (e : String × β) :
    last? k (entries ++ [e]) = if e.1 = k then some e.2 else last? k entries := by
  rw [last?, List.reverse_concat]
  rfl

theorem mem_of_last?_eq_some {k : String} {entries : List (String × β)} {b : β}
    (h : last? k entries = some b) : (k, b) ∈ entries :=
  List.mem_reverse.mp (mem_of_get?_eq_some h)

end Entries

/-- Of repeated keys sorting keeps the last. -/
theorem SortedEntries.get?_ofList_eq_last? {β : Type} (entries : List (String × β)) (k : String) :
    Entries.get? k (ofList entries) = Entries.last? k entries := by
  induction entries using List.reverseRecOn with
  | nil => rfl
  | append_singleton entries e ih =>
    rw [ofList_concat, Entries.last?_concat]
    split
    · next he => rw [← he, get?_insert_self]
    · next hne => rw [get?_insert_of_ne (Ne.symm hne), ih]

namespace Json

/-- What the reader gives: a value with sorted members, finite doubles, integers of 64 bits, and at
most so much nesting. -/
structure AsRead (n : Nat) (j : Json) : Prop where
  finite : j.Finite
  fits : j.Fits n
  sorted : j.sorted = j

theorem asRead_array {n : Nat} {items : List Json} (h : ∀ j ∈ items, j.AsRead n) :
    (array items).AsRead (n + 1) where
  finite := .array (fun j hj => (h j hj).finite)
  fits := .array (fun j hj => (h j hj).fits)
  sorted := by
    have hitems : items.map Json.sorted = items := by
      rw [List.map_congr_left (fun j hj => (h j hj).sorted), List.map_id']
    rw [Json.sorted, sortedItems_eq_map, hitems]

theorem asRead_object {n : Nat} {members : List (String × Json)}
    (ascending : SortedEntries.Ascending members) (h : ∀ m ∈ members, m.2.AsRead n) :
    (object members).AsRead (n + 1) where
  finite := .object (fun m hm => (h m hm).finite)
  fits := .object (fun m hm => (h m hm).fits)
  sorted := by
    rw [Json.sorted, sortedMembers_eq_mapValues,
      Entries.mapValues_eq_self (fun m hm => (h m hm).sorted), ascending.ofList_eq]

/-- A value as the reader gives it is what its canonical text is read as. -/
theorem AsRead.parse?_canonical {j : Json} (h : j.AsRead Document.depthLimit)
    (hdoubles : ∀ x ∈ j.doubles, x.Survives) : parse? j.canonical = some j := by
  rw [parse?, canonical, h.sorted, Document.parse?_laidOut h.fits
    (fun x hx => (hdoubles x hx).readsBack) (laidOut_text j), Option.bind_some,
    Document.json?_ofJson, h.sorted]

/-- Values as the reader gives them are determined by their canonical bytes. -/
theorem AsRead.canonicalBytes_inj {n m : Nat} {j k : Json} (hj : j.AsRead n) (hk : k.AsRead m) :
    j.canonicalBytes = k.canonicalBytes ↔ j = k := by
  refine ⟨fun h => ?_, fun h => h ▸ rfl⟩
  rw [← hj.sorted, ← hk.sorted]
  exact hj.finite.canonicalBytes_inj hk.finite h

end Json

namespace Document

/-- A document that stands at some depth denotes a value as the reader gives it, with the nesting
that is left there. -/
theorem inherited_asRead :
    Inherited (fun depth d => ∀ {j}, d.json? = some j → j.AsRead (depthLimit - depth)) where
  unreadable _ := nofun
  null _ := by rintro _ ⟨⟩; exact ⟨.null, .null _, rfl⟩
  bool _ b := by rintro _ ⟨⟩; exact ⟨.bool b, .bool _ b, rfl⟩
  numeral _ n := by
    intro j hj
    obtain h | ⟨x, hx, h⟩ | ⟨i, hlow, hhigh, h⟩ := ofNumeral_cases n
    all_goals rw [h] at hj; cases hj
    · exact ⟨.double hx, .double _ x, rfl⟩
    · exact ⟨.integer i, .integer _ hlow hhigh, rfl⟩
  string _ s := by rintro _ ⟨⟩; exact ⟨.string s, .string _ s, rfl⟩
  array {depth} hd items h := by
    intro j hj
    rw [show depthLimit - depth = depthLimit - (depth + 1) + 1 by omega]
    simp only [json?, Option.map_eq_some_iff, itemsJson?_eq_mapM] at hj
    obtain ⟨js, hjs, rfl⟩ := hj
    refine Json.asRead_array (fun j hj => ?_)
    obtain ⟨d, hd, hdj⟩ := exists_of_mapM hjs hj
    exact h d hd hdj
  object {depth} hd members h := by
    intro j hj
    rw [show depthLimit - depth = depthLimit - (depth + 1) + 1 by omega]
    simp only [json?, Option.map_eq_some_iff] at hj
    obtain ⟨ms, hms, rfl⟩ := hj
    refine Json.asRead_object (SortedEntries.ascending_ofList ms) (fun m hm => ?_)
    obtain ⟨d, hd, hdj⟩ := exists_of_membersJson? hms (SortedEntries.mem_of_mem_ofList hm)
    exact h _ hd hdj

theorem asRead_of_parse? {text : String} {d : Document} (h : parse? text = some d) {j : Json}
    (hj : d.json? = some j) : j.AsRead depthLimit := inherited_asRead.of_parse? h hj

/-- The documents say the same. Their numbers are the same as they were read, their arrays agree
item by item, and their objects have the same keys and agree in what comes last under each. -/
inductive Agrees : Document → Document → Prop
  | null : Agrees .null .null
  | bool (b : Bool) : Agrees (.bool b) (.bool b)
  | integer (i : Int) : Agrees (.integer i) (.integer i)
  | double (x : Double) : Agrees (.double x) (.double x)
  | string (s : String) : Agrees (.string s) (.string s)
  | array {items others : List Document} (h : List.Forall₂ Agrees items others) :
    Agrees (.array items) (.array others)
  | object {members others : List (String × Document)}
    (h : ∀ k, Option.Rel Agrees (Entries.last? k members) (Entries.last? k others)) :
    Agrees (.object members) (.object others)

/-- The document agrees with others exactly if both denote the same value. -/
def Settled (d : Document) : Prop :=
  ∀ {d' : Document} {j j' : Json}, d.json? = some j → d'.json? = some j' → (d.Agrees d' ↔ j = j')

section Agreement

variable {items others : List Document} {members : List (String × Document)}

theorem agree_items_iff (hsettled : ∀ d ∈ items, d.Settled) {js ks : List Json}
    (hjs : itemsJson? items = some js) (hks : itemsJson? others = some ks) :
    List.Forall₂ Agrees items others ↔ js = ks := by
  rw [itemsJson?_eq_mapM, mapM_eq_some_iff] at hjs hks
  induction hjs generalizing others ks with
  | nil => cases hks <;> simp
  | cons hj hjs ih =>
    obtain ⟨hfirst, hrest⟩ := List.forall_mem_cons.mp hsettled
    cases hks with
    | nil => simp
    | cons hk hks => rw [List.forall₂_cons, hfirst hj hk, ih hrest hks, List.cons.injEq]

theorem exists_json?_of_mem {ms : List (String × Json)} (h : membersJson? members = some ms)
    {m : String × Document} (hm : m ∈ members) : ∃ j, m.2.json? = some j := by
  rw [membersJson?_eq_mapM, mapM_eq_some_iff] at h
  induction h with
  | nil => cases hm
  | cons he _ ih =>
    rcases List.mem_cons.mp hm with rfl | hm
    · exact (Option.map_eq_some_iff.mp he).imp (fun _ => And.left)
    · exact ih hm

theorem last?_of_membersJson? {ms : List (String × Json)} (h : membersJson? members = some ms)
    (k : String) : Entries.last? k ms = (Entries.last? k members).bind json? := by
  refine get?_of_membersJson? ?_ k
  rw [membersJson?_eq_mapM, mapM_eq_some_iff] at h ⊢
  exact List.forall₂_reverse_iff.mpr h

theorem agree_options_iff {a b : Option Document} (hsettled : ∀ d ∈ a, d.Settled)
    (ha : ∀ d ∈ a, ∃ j, d.json? = some j) (hb : ∀ d ∈ b, ∃ j, d.json? = some j) :
    Option.Rel Agrees a b ↔ a.bind json? = b.bind json? := by
  cases a with
  | none => cases b with
    | none => simp
    | some d =>
      obtain ⟨j, hj⟩ := hb d rfl
      simp [hj]
  | some d =>
    obtain ⟨j, hj⟩ := ha d rfl
    cases b with
    | none => simp [hj]
    | some d' =>
      obtain ⟨j', hj'⟩ := hb d' rfl
      simp [hj, hj', hsettled d rfl hj hj']

theorem agree_members_iff (hsettled : ∀ m ∈ members, m.2.Settled)
    {others : List (String × Document)} {ms ns : List (String × Json)}
    (hms : membersJson? members = some ms) (hns : membersJson? others = some ns) :
    (∀ k, Option.Rel Agrees (Entries.last? k members) (Entries.last? k others)) ↔
      SortedEntries.ofList ms = SortedEntries.ofList ns := by
  have hlast : ∀ k, Option.Rel Agrees (Entries.last? k members) (Entries.last? k others) ↔
      Entries.get? k (SortedEntries.ofList ms) = Entries.get? k (SortedEntries.ofList ns) := by
    intro k
    rw [SortedEntries.get?_ofList_eq_last?, SortedEntries.get?_ofList_eq_last?,
      last?_of_membersJson? hms, last?_of_membersJson? hns]
    exact agree_options_iff (fun d hd => hsettled _ (Entries.mem_of_last?_eq_some hd))
      (fun d hd => exists_json?_of_mem hms (Entries.mem_of_last?_eq_some hd))
      (fun d hd => exists_json?_of_mem hns (Entries.mem_of_last?_eq_some hd))
  simp only [hlast]
  exact ⟨(SortedEntries.ascending_ofList ms).ext (SortedEntries.ascending_ofList ns),
    fun h k => by rw [h]⟩

/-- A document without parts is the only one that denotes its value, and agrees only with itself. -/
theorem settled_of_only {d : Document} {i : Json} (hi : d.json? = some i) (hself : d.Agrees d)
    (hagrees : ∀ d', d.Agrees d' → d' = d) (honly : ∀ d', d'.json? = some i → d' = d) :
    d.Settled := by
  intro d' j j' hj hj'
  obtain rfl : i = j := Option.some.inj (hi.symm.trans hj)
  constructor
  · intro h
    rw [hagrees d' h, hi] at hj'
    exact Option.some.inj hj'
  · rintro rfl
    exact (honly d' hj').symm ▸ hself

theorem settled_array (h : ∀ d ∈ items, d.Settled) : (array items).Settled := by
  intro d' j j' hj hj'
  simp only [json?, Option.map_eq_some_iff] at hj
  obtain ⟨js, hjs, rfl⟩ := hj
  constructor
  · intro hagree
    cases hagree with
    | array hagree =>
      simp only [json?, Option.map_eq_some_iff] at hj'
      obtain ⟨ks, hks, rfl⟩ := hj'
      rw [(agree_items_iff h hjs hks).mp hagree]
  · rintro rfl
    obtain ⟨others, rfl, hks⟩ := eq_array_of_json? hj'
    exact .array ((agree_items_iff h hjs hks).mpr rfl)

theorem settled_object (h : ∀ m ∈ members, m.2.Settled) : (object members).Settled := by
  intro d' j j' hj hj'
  simp only [json?, Option.map_eq_some_iff] at hj
  obtain ⟨ms, hms, rfl⟩ := hj
  constructor
  · intro hagree
    cases hagree with
    | object hagree =>
      simp only [json?, Option.map_eq_some_iff] at hj'
      obtain ⟨ns, hns, rfl⟩ := hj'
      rw [(agree_members_iff h hms hns).mp hagree]
  · rintro rfl
    obtain ⟨others, ns, rfl, hns, he⟩ := eq_object_of_json? hj'
    exact .object ((agree_members_iff h hms hns).mpr he)

theorem settled_of_bounded {d : Document} (hd : d.Bounded) : d.Settled := by
  induction hd with
  | unreadable => nofun
  | null =>
    exact settled_of_only rfl .null (by rintro _ ⟨⟩; rfl)
      (fun d' h => by cases d' <;> simp_all [json?])
  | bool b =>
    exact settled_of_only rfl (.bool b) (by rintro _ ⟨⟩; rfl)
      (fun d' h => by cases d' <;> simp_all [json?])
  | @integer i =>
    exact settled_of_only rfl (.integer i) (by rintro _ ⟨⟩; rfl) (fun _ => eq_integer_of_json?)
  | @double x =>
    exact settled_of_only rfl (.double x) (by rintro _ ⟨⟩; rfl)
      (fun d' h => by cases d' <;> simp_all [json?])
  | string s =>
    exact settled_of_only rfl (.string s) (by rintro _ ⟨⟩; rfl) (fun _ => eq_string_of_json?)
  | array _ ih => exact settled_array ih
  | object _ ih => exact settled_object ih

end Agreement

/-- Two texts that are read have the same canonical bytes exactly if they agree but for the order of
members. The canonical text of what was read is read again, to a value with the same canonical
bytes, as far as the digits printed for its doubles are converted to them again. -/
theorem canonical_text_is_normal {text text' : String} {d d' : Document} {j j' : Json}
    (hd : parse? text = some d) (hj : d.json? = some j)
    (hd' : parse? text' = some d') (hj' : d'.json? = some j') :
    (j.canonicalBytes = j'.canonicalBytes ↔ d.Agrees d')
      ∧ ((∀ x ∈ j.doubles, x.Survives) →
        (Json.parse? j.canonical).map Json.canonicalBytes = some j.canonicalBytes) := by
  have hread := asRead_of_parse? hd hj
  constructor
  · rw [hread.canonicalBytes_inj (asRead_of_parse? hd' hj'),
      settled_of_bounded (bounded_of_parse? hd) hj hj']
  · intro hdoubles
    rw [hread.parse?_canonical hdoubles, Option.map_some]

section Example

/-- Two and a half. -/
def level : Double := .ofMagnitude false 0x4004000000000000

/-- A gauge whose unit is given twice, and its reading in between. -/
def repeated : Json :=
  .object [("unit", .string "bar"), ("reading", .array [.object [("place", .string "hall"),
    ("at", .double level)]]), ("unit", .string "m")]

/-- The same gauge with each member once, in another order. -/
def reordered : Json :=
  .object [("unit", .string "m"), ("reading", .array [.object [("at", .double level),
    ("place", .string "hall")]])]

theorem readsBack_level : level.ReadsBack := Double.Survives.readsBack (by decide +kernel)

theorem parse?_repeated :
    parse? "\x7b\"unit\":\"bar\",\"reading\":[\x7b\"place\":\"hall\",\"at\":2.5\x7d],\"unit\":\"m\"\x7d" =
      some (ofJson repeated) := by
  have htext : repeated.text =
      "\x7b\"unit\":\"bar\",\"reading\":[\x7b\"place\":\"hall\",\"at\":2.5\x7d],\"unit\":\"m\"\x7d" := by
    decide +kernel
  have hdoubles : ∀ x ∈ repeated.doubles, x.ReadsBack :=
    List.forall_mem_singleton.mpr readsBack_level
  rw [← htext]
  refine parse?_laidOut ?_ hdoubles (Json.laidOut_text repeated)
  simp [repeated, depthLimit, Json.fits_object, Json.fits_array, Json.Fits.string, Json.Fits.double]

theorem parse?_reordered :
    parse? "\x7b\"unit\":\"m\",\"reading\":[\x7b\"at\":2.5,\"place\":\"hall\"\x7d]\x7d" =
      some (ofJson reordered) := by
  have htext : reordered.text =
      "\x7b\"unit\":\"m\",\"reading\":[\x7b\"at\":2.5,\"place\":\"hall\"\x7d]\x7d" := by
    decide +kernel
  have hdoubles : ∀ x ∈ reordered.doubles, x.ReadsBack :=
    List.forall_mem_singleton.mpr readsBack_level
  rw [← htext]
  refine parse?_laidOut ?_ hdoubles (Json.laidOut_text reordered)
  simp [reordered, depthLimit, Json.fits_object, Json.fits_array, Json.Fits.string,
    Json.Fits.double]

/-- The unit that is replaced does not count, and the order does not show. -/
theorem repeated_unit_does_not_show :
    repeated.sorted.canonicalBytes = reordered.sorted.canonicalBytes
      ∧ (ofJson repeated).Agrees (ofJson reordered)
      ∧ (Json.parse? repeated.sorted.canonical).map Json.canonicalBytes =
        some repeated.sorted.canonicalBytes := by
  have hbytes : repeated.sorted.canonicalBytes = reordered.sorted.canonicalBytes :=
    congrArg Json.canonicalBytes (show repeated.sorted = reordered.sorted by rfl)
  obtain ⟨hagree, hagain⟩ := canonical_text_is_normal parse?_repeated (json?_ofJson repeated)
    parse?_reordered (json?_ofJson reordered)
  exact ⟨hbytes, hagree.mp hbytes, hagain (by decide +kernel)⟩

end Example

end Document

end PropertyGraph
