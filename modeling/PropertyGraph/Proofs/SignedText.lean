import PropertyGraph.Proofs.Nesting
import PropertyGraph.Proofs.Reordering

namespace PropertyGraph

open Document

namespace SignedQuery

variable {q : Query}

theorem nodup_keys (token : String) (q : Query) :
    ((("token", Json.string token) :: q.toMembers).map Prod.fst).Nodup := by
  show ["token", "select", "from"].Nodup
  decide

theorem distinct_toJson (h : q.Canonical) (token : String) :
    (ofJson (toJson ⟨token, q⟩)).Distinct :=
  inherited_distinct.object (nodup_keys token q)
    (List.forall_mem_cons.mpr ⟨.string token, h.inherits_members inherited_distinct⟩)

/-- Whatever spells a signed canonical query is read as the signed query. -/
theorem ofDocument?_eq (h : q.Canonical) {token : String} {d : Document}
    (hd : d.Spells (toJson ⟨token, q⟩)) : ofDocument? d = some ⟨token, q⟩ := by
  obtain ⟨members, rfl, hmembers⟩ := hd.eq_object (nodup_keys token q)
  obtain ⟨fields, hknown, hfields⟩ := hmembers.known?_eq ["token", "select", "from"]
  have hflat : flatFields? ["token", "select", "from"] (.object members) = some fields := by
    rw [flatFields?, readable, hd.denotes, Option.isSome_some, if_pos rfl, hknown]
  have htoken : required? "token" string? fields = some token :=
    hfields.required?_eq (by decide) rfl (fun d hd => by rw [hd.eq_string]; rfl)
  have hquery : Query.ofFields? fields = some q :=
    h.ofFields?_eq hfields (by decide) (by decide) rfl rfl
  simp only [ofDocument?, hflat, htoken, hquery, Option.bind_eq_bind, Option.bind_some,
    Option.pure_def]

theorem parse?_spelled (h : q.Canonical) {token text : String} {d : Document}
    (ht : Document.parse? text = some d) (hd : d.Spells (toJson ⟨token, q⟩)) :
    parse? text = some ⟨token, q⟩ := by
  rw [parse?, ht, Option.bind_some, ofDocument?_eq h hd]

/-- A token verifies for a query if it decodes to the tag of the query. -/
theorem verify_eq_ok_iff (secret : List UInt8) (token : String) (q : Query) :
    verify secret ⟨token, q⟩ = .ok () ↔
      Hex.decode? token = some (Hmac.tag secret q.toJson.canonicalBytes) := by
  unfold verify isGenuine Json.verifies
  split
  · next h => exact ⟨fun _ => by simpa using h, fun _ => rfl⟩
  · next h => exact ⟨nofun, fun h' => absurd (by simpa using h') h⟩

end SignedQuery

/-- A query that was read from text and signed is read back from its own text, from any text that
lays it out with members in any order and with any blanks, and from any other text whose document
spells it. It verifies under the secret that signed it, and its tokens are those that decode to
the tag of its canonical bytes, which is to say its own token in either letter case. -/
theorem Query.signed_survives_text (secret : List UInt8) {q : Query} (h : q.Written)
    (hdoubles : ∀ x ∈ q.toJson.doubles, x.ReadsBack) :
    SignedQuery.parse? (q.sign secret).toJson.text = some (q.sign secret)
      ∧ (∀ (k : Json) (text : String), (q.sign secret).toJson.Reordered k → k.LaidOut text →
        SignedQuery.parse? text = some (q.sign secret))
      ∧ (∀ (text : String) (d : Document), Document.parse? text = some d →
        d.Spells (q.sign secret).toJson → SignedQuery.parse? text = some (q.sign secret))
      ∧ (q.sign secret).verify secret = .ok ()
      ∧ ∀ token : String,
        (SignedQuery.verify secret ⟨token, q⟩ = .ok () ↔
          Hex.decode? token = some (Hmac.tag secret q.toJson.canonicalBytes))
          ∧ (SignedQuery.verify secret ⟨token, q⟩ = .ok () ↔
            token.toLower = (q.sign secret).token) := by
  have hspelled : ∀ (text : String) (d : Document), Document.parse? text = some d →
      d.Spells (q.sign secret).toJson → SignedQuery.parse? text = some (q.sign secret) :=
    fun text d ht hd => SignedQuery.parse?_spelled h.canonical ht hd
  have hlaidOut : ∀ (k : Json) (text : String), (q.sign secret).toJson.Reordered k →
      k.LaidOut text → SignedQuery.parse? text = some (q.sign secret) := by
    intro k text hk ht
    obtain ⟨d, hd, hs⟩ := exists_spells_of_laidOut (h.fits (q.sign secret).token) hdoubles
      (SignedQuery.distinct_toJson h.canonical (q.sign secret).token) hk ht
    exact hspelled text d hd hs
  refine ⟨hlaidOut _ _ (.refl _) (Json.laidOut_text _), hlaidOut, hspelled,
    q.verify_sign secret, ?_⟩
  intro token
  have hverify := SignedQuery.verify_eq_ok_iff secret token q
  exact ⟨hverify, hverify.trans Hex.decode?_eq_some_iff⟩

/-- A canonical query is one that some text denotes, if it is not nested too deeply to be read. -/
theorem Query.Canonical.written {q : Query} (h : q.Canonical) (hfits : q.toJson.Fits depthLimit)
    (hdoubles : ∀ x ∈ q.toJson.doubles, x.ReadsBack) : q.Written := by
  obtain ⟨d, hd, hs⟩ :=
    exists_spells_of_laidOut hfits hdoubles (h.inherits inherited_distinct) (.refl _)
      (Json.laidOut_text q.toJson)
  exact .plain (by rw [Query.parse?, hd, Option.bind_some, h.ofDocument?_eq hs])

namespace Query

def goodScore : Double := .ofMagnitude false 0x4004000000000000

/-- The names of the authors of up to three ratings of a vertex with a score above two and a
half. -/
def goodRatings : Query :=
  ⟨.connect "ratings" (.connect "author" (.properties ["name"]) none none (.properties []))
      (some (.map [("score", .map [("$gt", .double goodScore)])])) (some 3) (.properties []),
    [.name "v1"]⟩

theorem readsBack_goodScore : goodScore.ReadsBack := by
  have hdouble : (Json.Numeral.mk false ['2'] (some ['5']) none).double? = some goodScore := by
    decide +kernel
  have hvalue : (Json.Numeral.mk false ['2'] (some ['5']) none).value? =
      some (.double goodScore) := by
    rw [Json.Numeral.value?, hdouble]
    rfl
  refine readsBack_of_spelling (n := ⟨false, ['2'], some ['5'], none⟩) ?_ (by decide +kernel) ?_
  · exact ⟨by simp [Json.Digits, isDigit], by simp, by simp, by simp [Json.Digits, isDigit],
      by simp⟩
  · rw [ofNumeral, hvalue]

theorem canonical_goodRatings : goodRatings.Canonical := by
  have hname : (Selection.properties ["name"] : Selection Value).Canonical :=
    .mk .nil (List.forall_mem_nil _) (List.forall_mem_nil _)
  have hauthor : (Selection.connect "author" (.properties ["name"]) none none
      (.properties []) : Selection Value).Canonical :=
    .mk (List.pairwise_singleton _ _) (List.forall_mem_singleton.mpr nofun)
      (List.forall_mem_singleton.mpr hname)
  have hfilter : Writable (some (.map [("score", .map [("$gt", .double goodScore)])])) := by
    rintro _ ⟨⟩
    refine ⟨.map (List.pairwise_singleton _ _) (List.forall_mem_singleton.mpr ?_), nofun⟩
    exact .map (List.pairwise_singleton _ _)
      (List.forall_mem_singleton.mpr (.double (by decide)))
  exact ⟨.mk (List.pairwise_singleton _ _) (List.forall_mem_singleton.mpr hfilter)
    (List.forall_mem_singleton.mpr hauthor), List.forall_mem_singleton.mpr (.name "v1")⟩

theorem fits_goodRatings : goodRatings.toJson.Fits depthLimit := by
  have hjson : goodRatings.toJson = .object [
      ("select", .object [("properties", .array []), ("connections", .object [
        ("ratings", .object [("properties", .array []),
          ("connections", .object [
            ("author", .object [("properties", .array [.string "name"])])]),
          ("filter", .object [("score", .object [("$gt", .double goodScore)])]),
          ("limit", .integer 3)])])]),
      ("from", .array [.string "v1"])] := rfl
  simp [hjson, depthLimit, Json.fits_object, Json.fits_array, Json.Fits.string, Json.Fits.double,
    Json.Fits.integer]

/-- The query survives, although the text gives its members backwards and ends in a new line. -/
theorem goodRatings_survive_text :
    goodRatings.Written ∧ (∀ x ∈ goodRatings.toJson.doubles, x.ReadsBack)
      ∧ SignedQuery.parse? ((Json.object [("from", .array [.string "v1"]),
          ("select", goodRatings.select.toJson),
          ("token", .string (goodRatings.sign [7]).token)]).text ++ "\n") =
        some (goodRatings.sign [7])
      ∧ (goodRatings.sign [7]).verify [7] = .ok () := by
  have hdoubles : ∀ x ∈ goodRatings.toJson.doubles, x.ReadsBack :=
    List.forall_mem_singleton.mpr readsBack_goodScore
  have hwritten := canonical_goodRatings.written fits_goodRatings hdoubles
  obtain ⟨-, hlaidOut, -, hverify, -⟩ := signed_survives_text [7] hwritten hdoubles
  refine ⟨hwritten, hdoubles, hlaidOut _ _ (.members (List.reverse_perm _).symm) ?_, hverify⟩
  rw [Json.LaidOut, String.toList_append]
  exact (Json.laidOut_text _).append_blanks (by simp [isBlank])

end Query

end PropertyGraph
