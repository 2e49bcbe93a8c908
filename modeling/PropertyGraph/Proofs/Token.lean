import PropertyGraph.Proofs.JsonText
import PropertyGraph.Proofs.SortedEntries

namespace PropertyGraph

section Bytes

theorem bytes_loop (bytes : ByteArray) (i : Nat) (acc : List UInt8) :
    ByteArray.toList.loop bytes i acc = acc.reverse ++ bytes.data.toList.drop i := by
  fun_induction ByteArray.toList.loop bytes i acc with
  | case1 i acc h ih =>
    have hi : i < bytes.data.toList.length := h
    have hget : bytes.get! i = bytes.data.toList[i] := by
      show bytes.data[i]! = bytes.data.toList[i]
      rw [getElem!_pos bytes.data i h, Array.getElem_toList]
    rw [ih, hget, List.reverse_cons, List.append_assoc, List.singleton_append,
      List.getElem_cons_drop hi]
  | case2 i acc h =>
    have hi : bytes.data.toList.length ≤ i := Nat.le_of_not_lt h
    rw [List.drop_eq_nil_of_le hi, List.append_nil]

/-- Texts with the same bytes are the same. -/
theorem string_bytes_inj {s t : String} (h : s.toUTF8.toList = t.toUTF8.toList) : s = t := by
  simp only [ByteArray.toList, bytes_loop, List.reverse_nil, List.nil_append,
    List.drop_zero] at h
  exact String.toByteArray_inj.mp (ByteArray.ext (Array.toList_inj.mp h))

end Bytes

namespace Hex

theorem decodeChars?_encode (bytes : List UInt8) :
    decodeChars? (bytes.flatMap ofByte) = some bytes := by
  induction bytes with
  | nil => rfl
  | cons b bytes ih =>
    have hb := b.toNat_lt
    have hhigh := Json.hexValue?_digitChar (b.toNat / 16) (by omega)
    have hlow := Json.hexValue?_digitChar (b.toNat % 16) (by omega)
    have hsum : b.toNat / 16 * 16 + b.toNat % 16 = b.toNat := by omega
    simp only [List.flatMap_cons, ofByte, List.cons_append, List.nil_append, decodeChars?, hhigh,
      hlow, ih, Option.bind_eq_bind, Option.bind_some, Option.pure_def, hsum, UInt8.ofNat_toNat]

theorem decode?_encode (bytes : List UInt8) : decode? (encode bytes) = some bytes := by
  rw [decode?, encode, String.toList_ofList, decodeChars?_encode]

section LetterCase

theorem value?_eq_some_iff_of_ascii : ∀ m < 128, ∀ n < 16,
    value? (Char.ofNat m) = some n ↔ (Char.ofNat m).toLower = Nat.digitChar n := by
  decide +kernel

theorem value?_lt_of_ascii : ∀ m < 128, ∀ n ∈ value? (Char.ofNat m), n < 16 := by
  decide +kernel

theorem toNat_digitChar_lt : ∀ n < 16, (Nat.digitChar n).toNat < 128 := by
  decide

theorem value?_eq_none {c : Char} (hc : 128 ≤ c.toNat) : value? c = none := by
  have hle : ∀ d : Char, d.toNat < 128 → ¬ c ≤ d := fun d hd h =>
    absurd (Nat.le_trans hc (show c.toNat ≤ d.toNat from h)) (by omega)
  rw [value?, if_neg (fun h => hle '9' (by decide) h.2), if_neg (fun h => hle 'f' (by decide) h.2),
    if_neg (fun h => hle 'F' (by decide) h.2)]

theorem toLower_eq_self {c : Char} (hc : 128 ≤ c.toNat) : c.toLower = c := by
  unfold Char.toLower
  exact dif_neg (fun h => absurd (Nat.le_trans hc (show c.toNat ≤ 'Z'.toNat from h.2)) (by decide))

/-- A digit in either letter case is the lower-case digit for its value. -/
theorem value?_eq_some_iff {c : Char} {n : Nat} :
    value? c = some n ↔ n < 16 ∧ c.toLower = Nat.digitChar n := by
  by_cases hc : c.toNat < 128
  · have hiff := value?_eq_some_iff_of_ascii c.toNat hc n
    have hlt := value?_lt_of_ascii c.toNat hc n
    rw [Char.ofNat_toNat] at hiff hlt
    exact ⟨fun h => ⟨hlt h, (hiff (hlt h)).mp h⟩, fun h => (hiff h.1).mpr h.2⟩
  · rw [value?_eq_none (by omega), toLower_eq_self (by omega)]
    refine ⟨nofun, ?_⟩
    rintro ⟨hn, rfl⟩
    exact absurd (toNat_digitChar_lt n hn) hc

theorem decodeChars?_eq_some_iff {cs : List Char} {bytes : List UInt8} :
    decodeChars? cs = some bytes ↔ cs.map Char.toLower = bytes.flatMap ofByte := by
  induction cs using decodeChars?.induct generalizing bytes with
  | case1 => cases bytes <;> simp [decodeChars?, ofByte]
  | case2 c => cases bytes <;> simp [decodeChars?, ofByte]
  | case3 a b rest ih =>
    simp only [decodeChars?, Option.bind_eq_bind, Option.bind_eq_some_iff, Option.pure_def,
      Option.some.injEq, value?_eq_some_iff, ih]
    constructor
    · rintro ⟨high, ⟨hhigh, ha⟩, low, ⟨hlow, hb⟩, bytes, hrest, rfl⟩
      have hbyte : (UInt8.ofNat (high * 16 + low)).toNat = high * 16 + low :=
        UInt8.toNat_ofNat_of_lt' (by show _ < 256; omega)
      simp only [List.map_cons, List.flatMap_cons, ofByte, hbyte, hrest, ha, hb]
      rw [show (high * 16 + low) / 16 = high by omega, show (high * 16 + low) % 16 = low by omega]
      rfl
    · intro h
      cases bytes with
      | nil => cases h
      | cons byte bytes =>
        simp only [List.map_cons, List.flatMap_cons, ofByte, List.cons_append, List.nil_append,
          List.cons.injEq] at h
        have hbyte := byte.toNat_lt
        refine ⟨byte.toNat / 16, ⟨by omega, h.1⟩, byte.toNat % 16, ⟨by omega, h.2.1⟩, bytes,
          h.2.2, ?_⟩
        rw [show byte.toNat / 16 * 16 + byte.toNat % 16 = byte.toNat by omega, UInt8.ofNat_toNat]

/-- A text decodes to some bytes if, in lower case, it is how they are encoded. -/
theorem decode?_eq_some_iff {text : String} {bytes : List UInt8} :
    decode? text = some bytes ↔ text.toLower = encode bytes := by
  have hlower : text.toLower.toList = text.toList.map Char.toLower := String.toList_map
  rw [decode?, decodeChars?_eq_some_iff, encode, ← String.toList_inj, hlower,
    String.toList_ofList]

end LetterCase

end Hex

namespace Json

/-- The token of a document verifies the documents with the same tag, and no others. -/
theorem verifies_token {secret : List UInt8} {body other : Json} :
    other.verifies secret (body.token secret) = true ↔
      Hmac.tag secret body.canonicalBytes = Hmac.tag secret other.canonicalBytes := by
  simp [verifies, token, Hex.decode?_encode]

theorem sortedItems_eq_map (items : List Json) : sortedItems items = items.map sorted := by
  induction items with
  | nil => rfl
  | cons item items ih => rw [sortedItems, ih, List.map_cons]

theorem sortedMembers_eq_mapValues (members : List (String × Json)) :
    sortedMembers members = Entries.mapValues sorted members := by
  induction members with
  | nil => rfl
  | cons m members ih =>
    obtain ⟨key, j⟩ := m
    rw [sortedMembers, ih]
    rfl

theorem Finite.sorted {j : Json} (h : j.Finite) : j.sorted.Finite := by
  induction h with
  | null => exact .null
  | bool b => exact .bool b
  | integer i => exact .integer i
  | double hx => exact .double hx
  | string s => exact .string s
  | array h ih =>
    rw [Json.sorted, sortedItems_eq_map]
    refine .array (fun j hj => ?_)
    obtain ⟨i, hi, rfl⟩ := List.mem_map.mp hj
    exact ih i hi
  | object h ih =>
    rw [Json.sorted, sortedMembers_eq_mapValues]
    refine .object (fun m hm => ?_)
    obtain ⟨m', hm', rfl⟩ := Entries.mem_mapValues.mp (SortedEntries.mem_of_mem_ofList hm)
    exact ih m' hm'

/-- Documents with the same canonical bytes are the same but for the order of their members. -/
theorem Finite.canonicalBytes_inj {j k : Json} (hj : j.Finite) (hk : k.Finite)
    (h : j.canonicalBytes = k.canonicalBytes) : j.sorted = k.sorted :=
  hj.sorted.text_inj hk.sorted (string_bytes_inj h)

end Json

/-- A query that was signed under a secret is genuine under it. -/
theorem Query.verify_sign (secret : List UInt8) (q : Query) :
    (q.sign secret).verify secret = .ok () := by
  have h : (q.sign secret).isGenuine secret = true := Json.verifies_token.mpr rfl
  rw [SignedQuery.verify, if_pos h]

end PropertyGraph
