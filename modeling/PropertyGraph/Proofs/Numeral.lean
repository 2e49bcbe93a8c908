import PropertyGraph.Json.Document
import PropertyGraph.Json.Printer
import PropertyGraph.Proofs.Decimal

namespace PropertyGraph.Json

def Digits (cs : List Char) : Prop := ∀ c ∈ cs, Document.isDigit c = true

/-- The text cannot continue a number. -/
def Ends (rest : List Char) : Prop :=
  ∀ c, rest.head? = some c → Document.isDigit c = false ∧ c ≠ '.' ∧ c ≠ 'e' ∧ c ≠ 'E'

theorem ends_nil : Ends [] := fun _ h => by cases h

section Digits

variable {cs ds rest : List Char}

theorem Digits.append (hc : Digits cs) (hd : Digits ds) : Digits (cs ++ ds) := by
  intro c hm
  rcases List.mem_append.mp hm with h | h
  · exact hc c h
  · exact hd c h

theorem Digits.of_subset (hd : Digits ds) (hs : cs ⊆ ds) : Digits cs := fun c hc => hd c (hs hc)

theorem digits_zeros (k : Nat) : Digits (List.replicate k '0') := by
  intro c hc
  obtain rfl := List.eq_of_mem_replicate hc
  rfl

theorem digits_toDigits (n : Nat) : Digits (Nat.toDigits 10 n) := by
  intro c hc
  have hd := Nat.isDigit_of_mem_toDigits (by decide) (by decide) hc
  simp only [Char.isDigit, Bool.and_eq_true, decide_eq_true_eq] at hd
  simp only [Document.isDigit, Bool.and_eq_true, decide_eq_true_eq]
  exact hd

theorem digitsValue_eq (cs : List Char) : digitsValue cs = Nat.ofDigitChars 10 cs 0 := by
  simp only [digitsValue, digitValue, Nat.ofDigitChars_eq_foldl, Nat.mul_comm]

theorem digitsValue_append (cs ds : List Char) :
    digitsValue (cs ++ ds) = digitsValue cs * 10 ^ ds.length + digitsValue ds := by
  rw [digitsValue_eq, Nat.ofDigitChars_append, Nat.ofDigitChars_eq_ofDigitChars_zero,
    digitsValue_eq, digitsValue_eq, Nat.mul_comm]

theorem digitsValue_toDigits (n : Nat) : digitsValue (Nat.toDigits 10 n) = n := by
  rw [digitsValue_eq, Nat.ofDigitChars_ten_toDigits]

theorem digitsValue_zeros (k : Nat) : digitsValue (List.replicate k '0') = 0 := by
  rw [digitsValue_eq, Nat.ofDigitChars_replicate_zero, Nat.mul_zero]

theorem head?_toDigits {n : Nat} (hn : 0 < n) : (Nat.toDigits 10 n).head? ≠ some '0' := by
  induction n using Nat.strong_induction_on with
  | _ n ih =>
    rw [Nat.toDigits_eq_if (by decide)]
    split
    · intro h
      have := Nat.digitChar_eq_zero.mp (Option.some.inj h)
      omega
    · rw [List.head?_append_of_ne_nil _ Nat.toDigits_ne_nil]
      exact ih (n / 10) (by omega) (by omega)

theorem digits?_append (hd : Digits ds) (hne : ds ≠ [])
    (hr : ∀ c, rest.head? = some c → Document.isDigit c = false) :
    Document.digits? (ds ++ rest) = some (ds, rest) := by
  have htake : (ds ++ rest).takeWhile Document.isDigit = ds := by
    rw [List.takeWhile_append_of_pos hd]
    cases rest with
    | nil => simp
    | cons c rest => simp [hr c rfl]
  have hdrop : (ds ++ rest).dropWhile Document.isDigit = rest := by
    rw [List.dropWhile_append_of_pos hd]
    cases rest with
    | nil => rfl
    | cons c rest => simp [hr c rfl]
  unfold Document.digits?
  rw [htake, hdrop]
  cases ds with
  | nil => exact absurd rfl hne
  | cons d ds => rfl

end Digits

namespace Numeral

def fractionChars : Option (List Char) → List Char
  | none => []
  | some ds => '.' :: ds

/-- An exponent always has a sign. -/
def exponentChars : Option (Bool × List Char) → List Char
  | none => []
  | some (negative, ds) => 'e' :: (if negative then '-' else '+') :: ds

/-- The characters of a numeral. -/
def spelling (n : Numeral) : List Char :=
  (if n.negative then ['-'] else []) ++ n.whole ++ fractionChars n.fraction
    ++ exponentChars n.exponent

/-- Each part that is there has digits, and no superfluous zero leads. -/
structure Proper (n : Numeral) : Prop where
  whole : Digits n.whole
  whole_ne_nil : n.whole ≠ []
  lead : n.whole.length ≠ 1 → n.whole.head? ≠ some '0'
  fraction : ∀ ds, n.fraction = some ds → Digits ds ∧ ds ≠ []
  exponent : ∀ p, n.exponent = some p → Digits p.2 ∧ p.2 ≠ []

/-- A numeral with neither a point nor an exponent. -/
def isPlain (n : Numeral) : Bool := n.fraction.isNone && n.exponent.isNone

/-- The decimal that is spelled, but for its sign. -/
def decimal (n : Numeral) : Double.Decimal :=
  let fraction := n.fraction.getD []
  let power : Int := match n.exponent with
    | none => 0
    | some (true, ds) => -digitsValue ds
    | some (false, ds) => digitsValue ds
  ⟨digitsValue (n.whole ++ fraction), power - fraction.length⟩

variable {n : Numeral} {rest : List Char}

theorem whole?_append {ds : List Char} (hd : Digits ds) (hne : ds ≠ [])
    (hlead : ds.length ≠ 1 → ds.head? ≠ some '0')
    (hr : ∀ c, rest.head? = some c → Document.isDigit c = false) :
    Document.whole? (ds ++ rest) = some (ds, rest) := by
  have hc : ¬ (decide (ds.length ≠ 1) && ds.head? == some '0') = true := by
    intro h
    simp only [Bool.and_eq_true, decide_eq_true_eq, beq_iff_eq] at h
    exact hlead h.1 h.2
  unfold Document.whole?
  rw [digits?_append hd hne hr]
  exact if_neg hc

theorem fraction?_append {f : Option (List Char)}
    (hf : ∀ ds, f = some ds → Digits ds ∧ ds ≠ [])
    (hr : ∀ c, rest.head? = some c → Document.isDigit c = false ∧ c ≠ '.') :
    Document.fraction? (fractionChars f ++ rest) = some (f, rest) := by
  cases f with
  | none =>
    unfold Document.fraction?
    split
    · next r hc =>
      have hdot : rest.head? = some '.' := congrArg List.head? hc
      exact absurd rfl (hr '.' hdot).2
    · rfl
  | some ds =>
    obtain ⟨hd, hne⟩ := hf ds rfl
    have hdigits := digits?_append hd hne (fun c hc => (hr c hc).1)
    simp only [fractionChars, List.cons_append, Document.fraction?, hdigits]
    rfl

theorem exponent?_append {e : Option (Bool × List Char)}
    (he : ∀ p, e = some p → Digits p.2 ∧ p.2 ≠ [])
    (hr : ∀ c, rest.head? = some c → Document.isDigit c = false ∧ c ≠ 'e' ∧ c ≠ 'E') :
    Document.exponent? (exponentChars e ++ rest) = some (e, rest) := by
  cases e with
  | none =>
    unfold Document.exponent?
    split
    · next r hc =>
      have hmark : rest.head? = some 'e' := congrArg List.head? hc
      exact absurd rfl (hr 'e' hmark).2.1
    · next r hc =>
      have hmark : rest.head? = some 'E' := congrArg List.head? hc
      exact absurd rfl (hr 'E' hmark).2.2
    · rfl
  | some p =>
    obtain ⟨negative, ds⟩ := p
    obtain ⟨hd, hne⟩ := he _ rfl
    have hdigits := digits?_append hd hne (fun c hc => (hr c hc).1)
    cases negative <;>
      simp [exponentChars, Document.exponent?, Document.power?, hdigits]

theorem head?_exponentChars {c : Char} {e : Option (Bool × List Char)}
    (h : (exponentChars e ++ rest).head? = some c) : c = 'e' ∨ rest.head? = some c := by
  cases e with
  | none => exact Or.inr h
  | some p =>
    left
    simpa [exponentChars] using h.symm

theorem head?_fractionChars {c : Char} {f : Option (List Char)}
    (h : (fractionChars f ++ rest).head? = some c) : c = '.' ∨ rest.head? = some c := by
  cases f with
  | none => exact Or.inr h
  | some ds =>
    left
    simpa [fractionChars] using h.symm

theorem Proper.unsigned? (hn : n.Proper) (hr : Ends rest) (negative : Bool) :
    Document.unsigned? negative
        (n.whole ++ (fractionChars n.fraction ++ (exponentChars n.exponent ++ rest))) =
      some (⟨negative, n.whole, n.fraction, n.exponent⟩, rest) := by
  have hexponent := exponent?_append hn.exponent
    (fun c hc => ⟨(hr c hc).1, (hr c hc).2.2.1, (hr c hc).2.2.2⟩)
  have hafter : ∀ c, (exponentChars n.exponent ++ rest).head? = some c →
      Document.isDigit c = false ∧ c ≠ '.' := by
    intro c hc
    rcases head?_exponentChars hc with rfl | hc
    · decide
    · exact ⟨(hr c hc).1, (hr c hc).2.1⟩
  have hfraction := fraction?_append hn.fraction hafter
  have hpoint : ∀ c, (fractionChars n.fraction ++ (exponentChars n.exponent ++ rest)).head? =
      some c → Document.isDigit c = false := by
    intro c hc
    rcases head?_fractionChars hc with rfl | hc
    · decide
    · exact (hafter c hc).1
  have hwhole := whole?_append hn.whole hn.whole_ne_nil hn.lead hpoint
  unfold Document.unsigned?
  simp [hwhole, hfraction, hexponent]

/-- What is spelled is read, up to where the number ends. -/
theorem Proper.numeral?_spelling (hn : n.Proper) (hr : Ends rest) :
    Document.numeral? (n.spelling ++ rest) = some (n, rest) := by
  obtain ⟨negative, whole, fraction, exponent⟩ := n
  have hu := fun negative => hn.unsigned? hr negative
  simp only [spelling, List.append_assoc] at hu ⊢
  cases negative with
  | true => exact hu true
  | false =>
    obtain ⟨d, ds, rfl⟩ := List.exists_cons_of_ne_nil hn.whole_ne_nil
    have hd : d ≠ '-' := by
      rintro rfl
      exact absurd (hn.whole '-' List.mem_cons_self) (by decide)
    unfold Document.numeral?
    split
    · next r hc => exact absurd (List.cons.inj hc).1 hd
    · exact hu false

/-- Numerals that are spelled alike are the same. -/
theorem Proper.spelling_inj {m : Numeral} {rest' : List Char} (hn : n.Proper) (hm : m.Proper)
    (hr : Ends rest) (hr' : Ends rest') (h : n.spelling ++ rest = m.spelling ++ rest') :
    n = m ∧ rest = rest' := by
  have hread := hn.numeral?_spelling hr
  rw [h, hm.numeral?_spelling hr'] at hread
  cases hread
  exact ⟨rfl, rfl⟩

/-- The numeral with another sign. -/
def signed (n : Numeral) (negative : Bool) : Numeral :=
  ⟨negative, n.whole, n.fraction, n.exponent⟩

theorem Proper.signed (hn : n.Proper) (negative : Bool) : (n.signed negative).Proper :=
  ⟨hn.whole, hn.whole_ne_nil, hn.lead, hn.fraction, hn.exponent⟩

theorem spelling_signed (n : Numeral) (hs : n.negative = false) :
    (n.signed true).spelling = '-' :: n.spelling := by
  simp [spelling, Numeral.signed, hs]

end Numeral

/-- The numeral of an integer. -/
def integerNumeral (i : Int) : Numeral :=
  ⟨decide (i < 0), Nat.toDigits 10 i.natAbs, none, none⟩

theorem spelling_integerNumeral (i : Int) : (integerNumeral i).spelling = integerChars i := by
  unfold integerNumeral integerChars Numeral.spelling
  by_cases hi : i < 0 <;> simp [hi, Numeral.fractionChars, Numeral.exponentChars]

theorem proper_integerNumeral (i : Int) : (integerNumeral i).Proper where
  whole := digits_toDigits _
  whole_ne_nil := Nat.toDigits_ne_nil
  lead := by
    intro hl
    rcases Nat.eq_zero_or_pos i.natAbs with hz | hp
    · simp [integerNumeral, hz] at hl
    · exact head?_toDigits hp
  fraction _ h := by cases h
  exponent _ h := by cases h

theorem integerNumeral_inj {i j : Int} (h : integerNumeral i = integerNumeral j) : i = j := by
  have hd := congrArg (fun n => digitsValue n.whole) h
  have hs := congrArg Numeral.negative h
  simp only [integerNumeral, digitsValue_toDigits, decide_eq_decide] at hd hs
  omega

end PropertyGraph.Json

namespace PropertyGraph.Double

open Json

/-- A numeral without sign, with a point or an exponent, that denotes the decimal. -/
structure Denotes (n : Numeral) (d : Decimal) : Prop where
  unsigned : n.negative = false
  proper : n.Proper
  notPlain : n.isPlain = false
  value : n.decimal.value = d.value

variable {d : Decimal}

/-- The digits behind a point, with zeros between. -/
theorem denotes_small (k : Nat)
    (he : d.exponent = -((k + (Nat.toDigits 10 d.digits).length : Nat) : Int)) :
    Denotes ⟨false, ['0'], some (List.replicate k '0' ++ Nat.toDigits 10 d.digits), none⟩ d where
  unsigned := rfl
  notPlain := rfl
  proper :=
    { whole := digits_zeros 1
      whole_ne_nil := List.cons_ne_nil _ _
      lead := fun h => absurd rfl h
      fraction := by
        rintro ds ⟨⟩
        exact ⟨(digits_zeros k).append (digits_toDigits _), by simp [Nat.toDigits_ne_nil]⟩
      exponent := fun _ h => by cases h }
  value := by
    have hd : digitsValue (['0'] ++ (List.replicate k '0' ++ Nat.toDigits 10 d.digits)) =
        d.digits := by
      have hz : ['0'] ++ (List.replicate k '0' ++ Nat.toDigits 10 d.digits) =
          List.replicate (k + 1) '0' ++ Nat.toDigits 10 d.digits := rfl
      rw [hz, digitsValue_append, digitsValue_zeros, digitsValue_toDigits]
      omega
    unfold Numeral.decimal Decimal.value
    simp only [Option.getD_some, hd, he, List.length_append, List.length_replicate, zero_sub]

/-- The digits of a whole number, with zeros up to the point. -/
theorem denotes_whole (hd : 0 < d.digits) (k : Nat) (he : d.exponent = k) :
    Denotes ⟨false, Nat.toDigits 10 d.digits ++ List.replicate k '0', some ['0'], none⟩ d where
  unsigned := rfl
  notPlain := rfl
  proper :=
    { whole := (digits_toDigits _).append (digits_zeros k)
      whole_ne_nil := by simp [Nat.toDigits_ne_nil]
      lead := fun _ => by
        rw [List.head?_append_of_ne_nil _ Nat.toDigits_ne_nil]
        exact head?_toDigits hd
      fraction := by
        rintro ds ⟨⟩
        exact ⟨digits_zeros 1, List.cons_ne_nil _ _⟩
      exponent := fun _ h => by cases h }
  value := by
    have hv : digitsValue (Nat.toDigits 10 d.digits ++ List.replicate k '0' ++ ['0']) =
        d.digits * 10 ^ (k + 1) := by
      have hz : List.replicate k '0' ++ ['0'] = List.replicate (k + 1) '0' :=
        List.replicate_succ'.symm
      rw [List.append_assoc, hz, digitsValue_append, digitsValue_zeros, digitsValue_toDigits,
        List.length_replicate, Nat.add_zero]
    unfold Numeral.decimal Decimal.value
    simp only [Option.getD_some, hv, he, zero_sub, List.length_singleton]
    push_cast
    rw [zpow_natCast, pow_succ]
    field_simp

/-- The digits with a point between two of them. -/
theorem denotes_split (hd : 0 < d.digits) {k : Nat} (hk : 0 < k)
    (hl : k < (Nat.toDigits 10 d.digits).length)
    (he : d.exponent = (k : Int) - (Nat.toDigits 10 d.digits).length) :
    Denotes ⟨false, (Nat.toDigits 10 d.digits).take k, some ((Nat.toDigits 10 d.digits).drop k),
      none⟩ d where
  unsigned := rfl
  notPlain := rfl
  proper :=
    { whole := (digits_toDigits _).of_subset (List.take_subset _ _)
      whole_ne_nil := by
        intro h
        have := congrArg List.length h
        simp only [List.length_take, List.length_nil] at this
        omega
      lead := fun _ => by
        rw [List.head?_take, if_neg hk.ne']
        exact head?_toDigits hd
      fraction := by
        rintro ds ⟨⟩
        refine ⟨(digits_toDigits _).of_subset (List.drop_subset _ _), ?_⟩
        intro h
        have := congrArg List.length h
        simp only [List.length_drop, List.length_nil] at this
        omega
      exponent := fun _ h => by cases h }
  value := by
    have hx : (0 : Int) - ((Nat.toDigits 10 d.digits).length - k : Nat) = d.exponent := by omega
    unfold Numeral.decimal Decimal.value
    simp only [Option.getD_some, List.take_append_drop, digitsValue_toDigits, List.length_drop, hx]

/-- The lead digit, the others behind a point, and the power that belongs to the lead digit. -/
theorem denotes_scientific {c : Char} {cs : List Char}
    (hc : Nat.toDigits 10 d.digits = c :: cs) :
    Denotes ⟨false, [c], if cs = [] then none else some cs,
      some (decide (cs.length + d.exponent < 0),
        Nat.toDigits 10 (cs.length + d.exponent).natAbs)⟩ d where
  unsigned := rfl
  notPlain := by simp [Numeral.isPlain]
  proper := by
    have hdigits := hc ▸ digits_toDigits d.digits
    exact
      { whole := hdigits.of_subset (by simp)
        whole_ne_nil := List.cons_ne_nil _ _
        lead := fun h => absurd rfl h
        fraction := by
          intro ds h
          split at h
          · cases h
          · next hne =>
            cases h
            exact ⟨hdigits.of_subset (List.subset_cons_self _ _), hne⟩
        exponent := by
          rintro p ⟨⟩
          exact ⟨digits_toDigits _, Nat.toDigits_ne_nil⟩ }
  value := by
    have hf : (if cs = [] then none else some cs).getD [] = cs := by
      split
      · next h => rw [h]; rfl
      · rfl
    have hv : digitsValue ([c] ++ cs) = d.digits := by
      rw [List.singleton_append, ← hc, digitsValue_toDigits]
    unfold Numeral.decimal Decimal.value
    simp only [hf, hv]
    congr 2
    by_cases hp : cs.length + d.exponent < 0
    · simp only [hp, decide_true, digitsValue_toDigits]
      omega
    · simp only [hp, decide_false, digitsValue_toDigits]
      omega

/-- A decimal is laid out as the spelling of a numeral that denotes it. -/
theorem layout_spells (hd : 0 < d.digits) :
    ∃ n, Denotes n d ∧ (layout d).toList = n.spelling := by
  unfold layout
  dsimp only
  split
  · split
    · next hp =>
      refine ⟨_, denotes_small
        (-((Nat.toDigits 10 d.digits).length + d.exponent)).toNat (by omega), ?_⟩
      simp [Numeral.spelling, Numeral.fractionChars, Numeral.exponentChars]
    · next hp =>
      split
      · next hl =>
        refine ⟨_, denotes_whole hd (((Nat.toDigits 10 d.digits).length + d.exponent).toNat
          - (Nat.toDigits 10 d.digits).length) (by omega), ?_⟩
        simp [Numeral.spelling, Numeral.fractionChars, Numeral.exponentChars]
      · next hl =>
        refine ⟨_, denotes_split hd (k := ((Nat.toDigits 10 d.digits).length + d.exponent).toNat)
          (by omega) (by omega) (by omega), ?_⟩
        simp [Numeral.spelling, Numeral.fractionChars, Numeral.exponentChars]
  · obtain ⟨c, cs, hc⟩ := List.exists_cons_of_ne_nil (Nat.toDigits_ne_nil (b := 10) (n := d.digits))
    refine ⟨_, denotes_scientific hc, ?_⟩
    have hp : ((Nat.toDigits 10 d.digits).length : Int) + d.exponent - 1 =
        cs.length + d.exponent := by
      rw [hc, List.length_cons]
      omega
    rw [hp, hc, String.toList_ofList]
    cases cs with
    | nil => simp [Numeral.spelling, Numeral.fractionChars, Numeral.exponentChars]
    | cons c' cs => simp [Numeral.spelling, Numeral.fractionChars, Numeral.exponentChars]

/-- The numeral that spells zero. -/
def zeroNumeral : Numeral := ⟨false, ['0'], some ['0'], none⟩

theorem proper_zeroNumeral : zeroNumeral.Proper where
  whole := digits_zeros 1
  whole_ne_nil := List.cons_ne_nil _ _
  lead h := absurd rfl h
  fraction := by
    rintro ds ⟨⟩
    exact ⟨digits_zeros 1, List.cons_ne_nil _ _⟩
  exponent _ h := by cases h

theorem magnitude_zeroNumeral : zeroNumeral.decimal.magnitude = 0 := by
  have hd : zeroNumeral.decimal = ⟨0, -1⟩ := by decide
  rw [hd]
  unfold Decimal.magnitude nearest
  simp [roundEven]

/-- The text of a magnitude, without a sign, spells a numeral of that magnitude. -/
theorem magnitudeText_spells {m : Nat} (hm : m < infinite) :
    ∃ n : Numeral, (if m = 0 then "0.0" else layout (shortest m)).toList = n.spelling
      ∧ n.negative = false ∧ n.Proper ∧ n.isPlain = false ∧ n.decimal.magnitude = m := by
  split
  · next hz => exact ⟨zeroNumeral, rfl, rfl, proper_zeroNumeral, rfl, hz ▸ magnitude_zeroNumeral⟩
  · next hz =>
    have hs := magnitude_shortest hm
    obtain ⟨n, hn, htext⟩ := layout_spells (digits_pos_of_magnitude (hs.symm ▸ hz))
    refine ⟨n, htext, hn.unsigned, hn.proper, hn.notPlain, ?_⟩
    rw [Decimal.magnitude_congr hn.value, hs]

/-- The text of a finite double spells a numeral with its sign and its magnitude. -/
theorem text_spells {x : Double} (hx : x.isFinite = true) :
    ∃ n : Numeral, x.text.toList = n.spelling
      ∧ n.negative = x.negative ∧ n.Proper ∧ n.isPlain = false
      ∧ n.decimal.magnitude = x.magnitude := by
  obtain ⟨n, htext, hsign, hproper, hplain, hm⟩ := magnitudeText_spells (of_decide_eq_true hx)
  refine ⟨n.signed x.negative, ?_, rfl, hproper.signed _, hplain, hm⟩
  unfold text
  dsimp only
  cases x.negative with
  | false =>
    rw [if_neg Bool.false_ne_true, htext, ← hsign]
    rfl
  | true =>
    rw [if_pos rfl, String.toList_append, htext, n.spelling_signed hsign]
    rfl

/-- No two finite doubles have the same text. -/
theorem text_inj {x y : Double} (hx : x.isFinite = true) (hy : y.isFinite = true)
    (h : x.text = y.text) : x = y := by
  obtain ⟨n, hn, hsn, hpn, -, hmn⟩ := text_spells hx
  obtain ⟨m, hm, hsm, hpm, -, hmm⟩ := text_spells hy
  have hspell : n.spelling ++ [] = m.spelling ++ [] := by rw [← hn, ← hm, h]
  obtain ⟨rfl, -⟩ := hpn.spelling_inj hpm ends_nil ends_nil hspell
  rcases x with ⟨negative, magnitude, _⟩
  rcases y with ⟨negative', magnitude', _⟩
  obtain rfl : negative = negative' := hsn.symm.trans hsm
  obtain rfl : magnitude = magnitude' := hmn.symm.trans hmm
  rfl

end PropertyGraph.Double
