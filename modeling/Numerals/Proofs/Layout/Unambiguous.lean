import Numerals.Proofs.Layout.Written

/-!
# Which doubles have the same text

Two numerals of one layout with the same text have the same digits and exponent, so that the text
identifies the double. The general style mixes two layouts. In radixes above 14 the letter that
marks an exponent is a digit too, and the text of a number with one digit before the point can be
that of a large number with an exponent. Main statement: these are the only pairs of doubles with
the same text.
-/

namespace Numerals

namespace Text

variable {ds es : List ℕ}

/-! ## Characters of digits -/

theorem map_digitValue?_digitText (h : ∀ d ∈ ds, d < 36) :
    (digitText ds).map digitValue? = ds.map some := by
  rw [digitText, List.map_map]
  apply List.map_congr_left
  intro d hd
  exact digitValue?_digitChar d (h d hd)

theorem digitText_inj (hds : ∀ d ∈ ds, d < 36) (hes : ∀ d ∈ es, d < 36)
    (h : digitText ds = digitText es) : ds = es := by
  have hvalues := congrArg (List.map digitValue?) h
  rw [map_digitValue?_digitText hds, map_digitValue?_digitText hes] at hvalues
  exact List.map_injective_iff.mpr (Option.some_injective ℕ) hvalues

theorem exists_of_mem_digitText {c : Char} (h : ∀ d ∈ ds, d < 36) (hc : c ∈ digitText ds) :
    ∃ d ∈ ds, digitValue? c = some d := by
  obtain ⟨d, hd, rfl⟩ := List.mem_map.mp hc
  exact ⟨d, hd, digitValue?_digitChar d (h d hd)⟩

theorem not_mem_digitText_of_le {b : ℕ} {c : Char} (hb : b ≤ 36) (hc : ∀ d ∈ digitValue? c, b ≤ d)
    (h : ∀ d ∈ ds, d < b) : c ∉ digitText ds := by
  intro hmem
  obtain ⟨d, hd, hvalue⟩ := exists_of_mem_digitText (fun d hd => (h d hd).trans_le hb) hmem
  exact absurd (h d hd) (Nat.not_lt.mpr (hc d hvalue))

theorem not_mem_digitText {c : Char} (hc : digitValue? c = none) (h : ∀ d ∈ ds, d < 36) :
    c ∉ digitText ds :=
  not_mem_digitText_of_le le_rfl (by simp [hc]) h

/-! ## Decimal exponents -/

theorem decimalNat_inj {m n : ℕ} (h : decimalNat m = decimalNat n) : m = n := by
  obtain ⟨ds, hm, -, hds, rfl⟩ := exists_digits m
  obtain ⟨es, hn, -, hes, rfl⟩ := exists_digits n
  rw [hm, hn] at h
  rw [digitText_inj (fun d hd => (hds d hd).trans (by decide))
    (fun d hd => (hes d hd).trans (by decide)) h]

theorem not_mem_decimalNat {c : Char} (hc : ∀ d ∈ digitValue? c, 10 ≤ d) (n : ℕ) :
    c ∉ decimalNat n := by
  obtain ⟨ds, hn, -, hds, -⟩ := exists_digits n
  rw [hn]
  exact not_mem_digitText_of_le (by decide) hc hds

theorem decimalInt_inj {d e : ℤ} (h : decimalInt d = decimalInt e) : d = e := by
  have hminus {m : ℕ} {cs : List Char} (heq : decimalNat m = '-' :: cs) : False :=
    not_mem_decimalNat (by decide) m (heq ▸ List.mem_cons_self)
  cases d with
  | ofNat m =>
    cases e with
    | ofNat n => rw [decimalNat_inj h]
    | negSucc n => exact (hminus h).elim
  | negSucc m =>
    cases e with
    | ofNat n => exact (hminus h.symm).elim
    | negSucc n =>
      have hsucc := decimalNat_inj (List.cons.inj h).2
      rw [Nat.succ.inj hsucc]

theorem not_mem_decimalInt (e : ℤ) : 'e' ∉ decimalInt e := by
  have hmark (n : ℕ) : 'e' ∉ decimalNat n := not_mem_decimalNat (by decide) n
  cases e with
  | ofNat n => exact hmark n
  | negSucc n => simpa [decimalInt] using hmark (n + 1)

/-- Two cuts at the first place of one character are the same. -/
theorem cut_first {c : Char} {as bs cs ds : List Char} (has : c ∉ as) (hbs : c ∉ bs)
    (h : as ++ c :: cs = bs ++ c :: ds) : as = bs ∧ cs = ds := by
  induction as generalizing bs with
  | nil =>
    cases bs with
    | nil => exact ⟨rfl, (List.cons.inj h).2⟩
    | cons b bs => exact absurd ((List.cons.inj h).1 ▸ List.mem_cons_self) hbs
  | cons a as ih =>
    cases bs with
    | nil => exact absurd ((List.cons.inj h).1 ▸ List.mem_cons_self) has
    | cons b bs =>
      obtain ⟨hhead, htail⟩ := List.cons.inj h
      obtain ⟨hrest, hcut⟩ := ih (fun hmem => has (List.mem_cons_of_mem a hmem))
        (fun hmem => hbs (List.mem_cons_of_mem b hmem)) htail
      exact ⟨by rw [hhead, hrest], hcut⟩

/-- What stands before the last mark of an exponent, and the exponent. -/
theorem cut_exponent {as bs : List Char} {d e : ℤ}
    (h : as ++ 'e' :: decimalInt d = bs ++ 'e' :: decimalInt e) : as = bs ∧ d = e := by
  have hrev := congrArg List.reverse h
  simp only [List.reverse_append, List.reverse_cons, List.append_assoc, List.singleton_append]
    at hrev
  have hd : 'e' ∉ (decimalInt d).reverse := by simpa using not_mem_decimalInt d
  have he : 'e' ∉ (decimalInt e).reverse := by simpa using not_mem_decimalInt e
  obtain ⟨hexp, hfront⟩ := cut_first hd he hrev
  exact ⟨List.reverse_injective hfront, decimalInt_inj (List.reverse_injective hexp)⟩

end Text

namespace Layout

open Text (digitText numeralValue)
open Digits (chars)

variable {b : ℕ} {body tail : List Char} {e : ℤ} {q r : ℚ} {ds es : Digits}

/-! ## Numerals with a point -/

/-- Numerals with the same text denote the same number if what follows the digits is the same. -/
theorem Pointed.unique (hb : b ≤ 36) (h : Pointed b body tail e q) (h' : Pointed b body tail e r) :
    q = r := by
  obtain ⟨ws, ps, -, -, hws, hps, rfl, rfl⟩ := h
  obtain ⟨vs, qs, -, -, hvs, hqs, htext, rfl⟩ := h'
  have hlt {ns : List ℕ} (hns : ∀ d ∈ ns, d < b) : ∀ d ∈ ns, d < 36 :=
    fun d hd => (hns d hd).trans_le hb
  obtain ⟨hwhole, hrest⟩ := Text.cut_first (Text.not_mem_digitText (by decide) (hlt hws))
    (Text.not_mem_digitText (by decide) (hlt hvs)) htext
  have hpart := List.append_cancel_right hrest
  rw [Text.digitText_inj (hlt hws) (hlt hvs) hwhole, Text.digitText_inj (hlt hps) (hlt hqs) hpart]

theorem Pointed.ne_minus (hb : b ≤ 36) (h : Pointed b body tail e q) (cs : List Char) :
    body ≠ '-' :: cs := by
  obtain ⟨ws, ps, hwne, -, hws, -, rfl, -⟩ := h
  obtain ⟨d, ws, rfl⟩ := List.exists_cons_of_ne_nil hwne
  intro heq
  have hvalue := Text.digitValue?_digitChar d ((hws d List.mem_cons_self).trans_le hb)
  rw [(List.cons.inj heq).1] at hvalue
  cases hvalue

/-- The sign can be told from the numeral. -/
theorem signed_inj {body' : List Char} {negative negative' : Bool}
    (h : ∀ cs, body ≠ '-' :: cs) (h' : ∀ cs, body' ≠ '-' :: cs)
    (heq : signed negative body = signed negative' body') :
    negative = negative' ∧ body = body' := by
  have hchars := congrArg String.toList heq
  simp only [signed, String.toList_ofList] at hchars
  cases negative <;> cases negative' <;> simp only [if_true, if_false, Bool.false_eq_true] at hchars
  · exact ⟨rfl, hchars⟩
  · exact absurd hchars (h _)
  · exact absurd hchars.symm (h' _)
  · exact ⟨rfl, (List.cons.inj hchars).2⟩

/-! ## The two layouts of one text -/

/-- The digits, with a zero after a single one. -/
def padded (ds : List UInt8) : List UInt8 :=
  if ds.length = 1 then ds ++ [0] else ds

/-- A point after the first character. -/
def pointAfterFirst : List Char → List Char
  | [] => []
  | c :: cs => c :: '.' :: cs

theorem pointAfterFirst_inj {as bs : List Char} (h : pointAfterFirst as = pointAfterFirst bs) :
    as = bs := by
  cases as with
  | nil =>
    cases bs with
    | nil => rfl
    | cons b bs => cases h
  | cons a as =>
    cases bs with
    | nil => cases h
    | cons b bs =>
      simp only [pointAfterFirst, List.cons.injEq, true_and] at h
      rw [h.1, h.2]

theorem fixedShortest_one {ds : List UInt8} (h : ds ≠ []) :
    fixedShortest ds 1 = pointAfterFirst (chars (padded ds)) := by
  obtain ⟨d, ds, rfl⟩ := List.exists_cons_of_ne_nil h
  unfold fixedShortest padded
  rw [if_neg (by decide)]
  cases ds with
  | nil => rfl
  | cons e es =>
    have hlong : ¬ ((d :: e :: es).length : ℤ) ≤ 1 := by
      simp only [List.length_cons]
      omega
    have hne : ¬ (d :: e :: es).length = 1 := by simp
    rw [if_neg hlong, if_neg hne]
    rfl

theorem scientificShortest_eq_pointAfterFirst {ds : List UInt8} {k : ℤ} (h : ds ≠ [])
    (hnonzero : ds ≠ [0]) (hk : LongWord.least < k) (hk' : k < 9223372036854775808) (radix : ℤ) :
    scientificShortest ⟨ds, k, radix⟩ =
      pointAfterFirst (chars (padded ds) ++ 'e' :: Text.decimalInt (k - 1)) := by
  have hzero : ¬ (Digits.mk ds k radix).isZero := by simpa [Digits.isZero] using hnonzero
  unfold scientificShortest padded
  rw [if_neg hzero, wrap_pred hk hk']
  obtain ⟨d, ds, rfl⟩ := List.exists_cons_of_ne_nil h
  cases ds with
  | nil => rfl
  | cons e es => simp [pointAfterFirst, chars]

theorem scientificShortest_eq (h : es.Written b) :
    scientificShortest es =
      pointAfterFirst (chars (padded es.digits) ++ 'e' :: Text.decimalInt (es.exponent - 1)) := by
  have hnonzero : es.digits ≠ [0] := by
    intro hdigits
    exact h.head (by rw [hdigits]; rfl)
  have hlower := h.lower
  have hupper := h.upper
  exact scientificShortest_eq_pointAfterFirst h.below.ne_nil hnonzero
    (by unfold LongWord.least; omega) (by omega) es.radix

theorem not_mem_chars (hb : b ≤ 36) {c : Char} (hc : Text.digitValue? c = none) {ds : List UInt8}
    (h : DigitsBelow b ds) : c ∉ chars ds := by
  rw [chars_eq]
  exact Text.not_mem_digitText hc fun d hd => (h.lt d hd).trans_le hb

/-- The place of the point in the fixed layout. -/
theorem fixedShortest_whole (hb : b ≤ 36) {ds : List UInt8} {k : ℤ} (h : DigitsBelow b ds)
    (hk : 0 < k) :
    ∃ as cs, fixedShortest ds k = as ++ '.' :: cs ∧ '.' ∉ as ∧ (as.length : ℤ) = k := by
  have hpoint := not_mem_chars hb (c := '.') (by decide) h
  unfold fixedShortest
  rw [if_neg (by omega)]
  split_ifs with hle
  · refine ⟨chars ds ++ zeros (k.toNat - ds.length), ['0'], rfl, ?_, ?_⟩
    · rw [List.mem_append, not_or]
      exact ⟨hpoint, by simp [zeros]⟩
    · simp only [chars, zeros, List.length_append, List.length_map, List.length_replicate]
      omega
  · refine ⟨chars (ds.take k.toNat), chars (ds.drop k.toNat), rfl, ?_, ?_⟩
    · intro hmem
      unfold chars at hmem
      rw [List.map_take] at hmem
      exact hpoint (List.mem_of_mem_take hmem)
    · simp only [chars, List.length_map, List.length_take]
      omega

/-- With a point after the first digit, `ds` reads like the large number `es` with an exponent. -/
def Collides (ds es : Digits) : Prop :=
  ds.exponent = 1 ∧ 7 < es.exponent ∧
    chars ds.digits = chars (padded es.digits) ++ 'e' :: Text.decimalInt (es.exponent - 1)

theorem two_le_length_padded {ds : List UInt8} (h : ds ≠ []) : 2 ≤ (padded ds).length := by
  have hpos := List.length_pos_iff.mpr h
  unfold padded
  split_ifs with hone
  · simp [hone]
  · omega

/-- Digits that read like others with an exponent are at least three. -/
theorem three_le_length {ds : List UInt8} {cs : List Char} (h : es.digits ≠ [])
    (htext : chars ds = chars (padded es.digits) ++ 'e' :: cs) : 3 ≤ ds.length := by
  have hlen := congrArg List.length htext
  have hpadded := two_le_length_padded h
  simp only [chars, List.length_append, List.length_map, List.length_cons] at hlen
  omega

theorem padded_eq_self {ds : List UInt8} (h : ds.length ≠ 1) : padded ds = ds :=
  if_neg h

theorem scientificShortest_head (hb : b ≤ 36) (h : es.Written b) :
    ∃ d rest, scientificShortest es = Text.digitChar d :: '.' :: rest ∧ d ≠ 0 ∧ d < 36 := by
  obtain ⟨d, ds, hds⟩ := List.exists_cons_of_ne_nil h.below.ne_nil
  have hhead := h.head
  have hlt := h.below.lt d.toNat (by simp [hds])
  obtain ⟨tl, htl⟩ : ∃ tl, padded (d :: ds) = d :: tl := by
    cases ds with
    | nil => exact ⟨[0], rfl⟩
    | cons e es => exact ⟨e :: es, rfl⟩
  rw [scientificShortest_eq h, hds, htl]
  refine ⟨d.toNat, _, rfl, ?_, by omega⟩
  intro hd
  obtain rfl : d = 0 := UInt8.toNat_inj.mp hd
  exact hhead (by rw [hds]; rfl)

/-- A text of the fixed layout is one of the scientific layout only if one digit stands before the
point. -/
theorem exponent_eq_one (hb : b ≤ 36) (hds : ds.Written b) (hes : es.Written b)
    (h : fixedShortest ds.digits ds.exponent = scientificShortest es) : ds.exponent = 1 := by
  obtain ⟨d, rest, htext, hd, hlt⟩ := scientificShortest_head hb hes
  have hvalue := Text.digitValue?_digitChar d hlt
  rw [htext] at h
  rcases Int.lt_or_le 0 ds.exponent with hpos | hneg
  · obtain ⟨as, cs, hfixed, hpoint, hlen⟩ := fixedShortest_whole hb hds.below hpos
    have hne : '.' ∉ [Text.digitChar d] := by
      intro hmem
      rw [← List.mem_singleton.mp hmem] at hvalue
      cases hvalue
    obtain ⟨rfl, -⟩ := Text.cut_first hpoint hne (hfixed.symm.trans h)
    exact hlen.symm
  · -- a number below 1 is written with a zero before the point
    unfold fixedShortest at h
    rw [if_pos hneg] at h
    rw [← (List.cons.inj h).1] at hvalue
    cases hvalue
    exact absurd rfl hd

theorem collides_of_eq (hb : b ≤ 36) (hds : ds.Written b) (hes : es.Written b)
    (hexp : es.exponent < 0 ∨ 7 < es.exponent)
    (h : fixedShortest ds.digits ds.exponent = scientificShortest es) :
    14 < b ∧ Collides ds es := by
  have hone := exponent_eq_one hb hds hes h
  rw [hone, fixedShortest_one hds.below.ne_nil, scientificShortest_eq hes] at h
  have htext := pointAfterFirst_inj h
  have hlen : ds.digits.length ≠ 1 := by
    intro hlen
    have hthree := three_le_length hes.below.ne_nil htext
    simp [padded, hlen] at hthree
  rw [padded_eq_self hlen] at htext
  have hmark : 'e' ∈ chars ds.digits := by simp [htext]
  have hminus : '-' ∉ chars ds.digits := not_mem_chars hb (by decide) hds.below
  refine ⟨?_, hone, ?_, htext⟩
  · -- the mark is the digit 14
    rw [chars_eq] at hmark
    obtain ⟨d, hd, hvalue⟩ := Text.exists_of_mem_digitText
      (fun d hd => (hds.below.lt d hd).trans_le hb) hmark
    cases hvalue
    exact hds.below.lt 14 hd
  · -- an exponent without a minus sign is not negative
    refine hexp.resolve_left fun hneg => hminus ?_
    obtain ⟨n, hn⟩ : ∃ n : ℕ, es.exponent - 1 = .negSucc n :=
      ⟨(-es.exponent).toNat, by omega⟩
    rw [htext, hn]
    simp [Text.decimalInt]

theorem Collides.text_eq (hds : ds.Written b) (hes : es.Written b) (h : Collides ds es) :
    fixedShortest ds.digits ds.exponent = scientificShortest es := by
  obtain ⟨hone, -, htext⟩ := h
  have hthree := three_le_length hes.below.ne_nil htext
  have hlen : ds.digits.length ≠ 1 := by omega
  rw [hone, fixedShortest_one hds.below.ne_nil, scientificShortest_eq hes, padded_eq_self hlen,
    htext]

/-! ## Texts of one style -/

/-- The text that a style makes of all the digits. -/
def shortestText (s : Style) (ds : Digits) : List Char :=
  if resolve s ds.exponent = .fixed then fixedShortest ds.digits ds.exponent
  else scientificShortest ds

theorem written_fixed_pointed (h : ds.Written b) :
    Pointed b (fixedShortest ds.digits ds.exponent) [] 0 ds.value := by
  obtain ⟨digits, k, radix⟩ := ds
  obtain rfl := h.radix
  have hlower : -1074 < k := h.lower
  exact fixedShortest_pointed (k := k) h.below (by unfold LongWord.least; omega)

theorem written_scientific_pointed (h : ds.Written b) :
    Pointed b (scientificShortest ds) ('e' :: Text.decimalInt (ds.exponent - 1))
      (ds.exponent - 1) ds.value := by
  obtain ⟨digits, k, radix⟩ := ds
  obtain rfl := h.radix
  have hlower : -1074 < k := h.lower
  have hupper : k ≤ 1025 := h.upper
  refine scientificShortest_pointed h.below ?_ (by unfold LongWord.least; omega) (by omega) _
  rintro rfl
  exact h.head rfl

theorem exists_pointed (s : Style) (h : ds.Written b) :
    ∃ tail e, Pointed b (shortestText s ds) tail e ds.value := by
  unfold shortestText
  split_ifs with hfixed
  · exact ⟨_, _, written_fixed_pointed h⟩
  · exact ⟨_, _, written_scientific_pointed h⟩

theorem resolve_of_ne {s : Style} (hs : s ≠ .general) (k : ℤ) : resolve s k = s := by
  cases s with
  | general => exact absurd rfl hs
  | _ => rfl

theorem resolve_eq_fixed_iff (k : ℤ) : resolve .general k = .fixed ↔ ¬ (k < 0 ∨ 7 < k) := by
  unfold resolve
  dsimp only
  split_ifs with h
  · simp [h]
  · simp [h]

/-- The fixed text of one sequence is the scientific text of another one only in the general
style. -/
theorem collides_of_mixed (hb : b ≤ 36) {s : Style} (hds : ds.Written b) (hes : es.Written b)
    (hfixed : resolve s ds.exponent = .fixed) (hscientific : resolve s es.exponent ≠ .fixed)
    (h : fixedShortest ds.digits ds.exponent = scientificShortest es) :
    s = .general ∧ 14 < b ∧ Collides ds es := by
  have hs : s = .general := by
    by_contra hs
    rw [resolve_of_ne hs] at hfixed hscientific
    exact hscientific hfixed
  subst hs
  rw [ne_eq, resolve_eq_fixed_iff, not_not] at hscientific
  exact ⟨rfl, collides_of_eq hb hds hes hscientific h⟩

/-- Sequences with the same text have the same value or collide. -/
theorem value_eq_or_collides (hb : b ≤ 36) {s : Style} (hds : ds.Written b) (hes : es.Written b)
    (h : shortestText s ds = shortestText s es) :
    ds.value = es.value ∨ s = .general ∧ 14 < b ∧ (Collides ds es ∨ Collides es ds) := by
  unfold shortestText at h
  -- numerals of one layout are compared part by part, those of different layouts collide
  split_ifs at h with hd he he
  · left
    have hpointed := written_fixed_pointed hds
    rw [h] at hpointed
    exact hpointed.unique hb (written_fixed_pointed hes)
  · right
    obtain ⟨hs, hlarge, hcollides⟩ := collides_of_mixed hb hds hes hd he h
    exact ⟨hs, hlarge, .inl hcollides⟩
  · right
    obtain ⟨hs, hlarge, hcollides⟩ := collides_of_mixed hb hes hds he hd h.symm
    exact ⟨hs, hlarge, .inr hcollides⟩
  · left
    have hpointed := written_scientific_pointed hds
    have htext := h
    rw [scientificShortest_eq hds, scientificShortest_eq hes] at htext
    obtain ⟨-, hexp⟩ := Text.cut_exponent (pointAfterFirst_inj htext)
    rw [h, hexp] at hpointed
    exact hpointed.unique hb (written_scientific_pointed hes)

theorem Collides.shortestText_eq (hds : ds.Written b) (hes : es.Written b) (h : Collides ds es) :
    shortestText .general ds = shortestText .general es := by
  have hd : resolve .general ds.exponent = .fixed := by
    rw [resolve_eq_fixed_iff, h.1]
    decide
  have he : resolve .general es.exponent ≠ .fixed := by
    rw [ne_eq, resolve_eq_fixed_iff, not_not]
    exact .inr h.2.1
  unfold shortestText
  rw [if_pos hd, if_neg he, h.text_eq hds hes]

theorem render_shortest (hb : b ≤ 36) (h : ds.Written b) {o : Options} (hs : o.style ∈ Style.named)
    (hne : o.style ≠ .ecma) (hp : o.precision < 0) (negative : Bool) :
    ds.render negative o = .ok (signed negative (shortestText o.style ds)) := by
  obtain ⟨digits, k, radix⟩ := ds
  obtain rfl := h.radix
  refine render_eq_ok h.below negative ?_
  unfold shortestText
  rcases resolve_cases hs k with ⟨hecma, -⟩ | ⟨-, hres | hres⟩
  · exact absurd hecma hne
  · rw [if_pos hres]
    exact .inl ⟨hres, fixed_eq_ok h.below hb hp _⟩
  · rw [if_neg (by rw [hres]; decide)]
    exact .inr ⟨hres, scientific_eq_ok h.below hb hp _⟩

end Layout

/-! ## Main statement -/

namespace Decomposition

open FloatFormat (binary64)

variable {x y : Binary64}

/-- Digits of one value belong to one double, up to the sign. -/
theorem eq_of_value_eq {ds es : Digits} (hneg : x.isNegative = y.isNegative)
    (hx : ds.value ∈ binary64.rankInterval x.rank) (hy : es.value ∈ binary64.rankInterval y.rank)
    (h : ds.value = es.value) : x = y := by
  rw [h] at hx
  exact Binary64.ext_of_rank hneg (binary64.rankInterval_unique hx hy)

theorem eq_of_render_ecma (hx : x.isNaN = false) (hx0 : x.isZero = false) (hy : y.isNaN = false)
    (hy0 : y.isZero = false) {o : Options} (ho : o.style = .ecma) (h : x.render o = y.render o) :
    x = y := by
  have hs : o.style ∈ Style.named := by simp [ho, Style.named]
  obtain ⟨t, hxt, hxread⟩ := x.render_readsAs hs (by simp [ho])
  obtain ⟨u, hyu, hyread⟩ := y.render_readsAs hs (by simp [ho])
  rw [hxt, hyu] at h
  obtain rfl := Except.ok.inj h
  rw [Binary64.readBack_of_ne hx fun _ => hx0] at hxread
  rw [Binary64.readBack_of_ne hy fun _ => hy0] at hyread
  exact Except.ok.inj (hxread.strict.symm.trans hyread.strict)

/-- With valid settings and all digits, two finite doubles other than zero have the same text only
if they are the same or if their digits collide. The latter needs the general style, a radix above
14 and the same sign. -/
theorem same_text_iff (s : Settings) (hs : s.flaw? = none) (hp : s.precision = -1)
    (x y : Binary64) (hx : x.isFinite) (hx0 : x.isZero = false) (hy : y.isFinite)
    (hy0 : y.isZero = false) :
    ∃ ds es t u, Digits.generate (ofBinary64 x) s.radix = .ok ds ∧
      Digits.generate (ofBinary64 y) s.radix = .ok es ∧
      (ofBinary64 x).render s.radix s.options = .ok t ∧
      (ofBinary64 y).render s.radix s.options = .ok u ∧
      (t = u ↔ x = y ∨ s.options.style = .general ∧ 14 < s.radix ∧
        x.isNegative = y.isNegative ∧ (Layout.Collides ds es ∨ Layout.Collides es ds)) := by
  have hvalid := Settings.valid_of_flaw?_eq_none hs
  obtain ⟨b, hb⟩ := hvalid.radix
  have hmax := b.le_max
  obtain ⟨ds, hds, hdsw, hdsmem⟩ := generate_written hx hx0 b
  obtain ⟨es, hes, hesw, hesmem⟩ := generate_written hy hy0 b
  rw [← hb] at hds hes
  -- texts in the ECMA style are decimal and can be read back, which is not so in other radixes
  by_cases hecma : s.options.style = .ecma
  · have hnan {z : Binary64} (hz : z.isFinite) : z.isNaN = false := by
      simp [Binary64.isFinite] at hz
      exact hz.1
    have hne : s.options.style ≠ .ecma → s.options.precision < 0 := fun hne => absurd hecma hne
    obtain ⟨t, hxt, -⟩ := x.render_readsAs hvalid.style hne
    obtain ⟨u, hyu, -⟩ := y.render_readsAs hvalid.style hne
    rw [hvalid.ecma hecma] at hds hes ⊢
    refine ⟨ds, es, t, u, hds, hes, hxt, hyu, ?_, ?_⟩
    · rintro rfl
      exact .inl (eq_of_render_ecma (hnan hx) hx0 (hnan hy) hy0 hecma (hxt.trans hyu.symm))
    · rintro (rfl | ⟨hgeneral, -⟩)
      · exact Except.ok.inj (hxt.symm.trans hyu)
      · rw [hecma] at hgeneral
        cases hgeneral
  · have hneg : s.options.precision < 0 := by
      change s.precision < 0
      omega
    have hxt := render_of_isFinite hx s.options hds
    have hyu := render_of_isFinite hy s.options hes
    rw [Layout.render_shortest hmax hdsw hvalid.style hecma hneg] at hxt
    rw [Layout.render_shortest hmax hesw hvalid.style hecma hneg] at hyu
    refine ⟨ds, es, _, _, hds, hes, hxt, hyu, ?_, ?_⟩
    · intro htext
      obtain ⟨_, _, hpx⟩ := Layout.exists_pointed s.options.style hdsw
      obtain ⟨_, _, hpy⟩ := Layout.exists_pointed s.options.style hesw
      obtain ⟨hsign, hbody⟩ := Layout.signed_inj (hpx.ne_minus hmax) (hpy.ne_minus hmax) htext
      rcases Layout.value_eq_or_collides hmax hdsw hesw hbody with hvalue | ⟨hstyle, hlarge, hcol⟩
      · exact .inl (eq_of_value_eq hsign hdsmem hesmem hvalue)
      · exact .inr ⟨hstyle, by omega, hsign, hcol⟩
    · rintro (rfl | ⟨hstyle, -, hsign, hcol | hcol⟩)
      · exact Except.ok.inj (hxt.symm.trans hyu)
      · rw [hsign, hstyle, hcol.shortestText_eq hdsw hesw]
      · rw [hsign, hstyle, hcol.shortestText_eq hesw hdsw]

/-- Two doubles with the same text in radix 16: 402653184 is written with an exponent, and
1.556396484375 with four digits after the point. -/
theorem general_text_ambiguous :
    (Settings.mk "general" (-1) 16 "").flaw? = none ∧
    (ofBinary64 ⟨0x41B8000000000000⟩).render 16 .default = .ok "1.8e7" ∧
    (ofBinary64 ⟨0x3FF8E70000000000⟩).render 16 .default = .ok "1.8e7" := by
  decide +kernel

/-- The digits of these two doubles collide. -/
theorem same_text_iff_hexadecimal :
    (Settings.mk "general" (-1) 16 "").flaw? = none ∧
    ∃ ds es, Digits.generate (ofBinary64 ⟨0x41B8000000000000⟩) 16 = .ok ds ∧
      Digits.generate (ofBinary64 ⟨0x3FF8E70000000000⟩) 16 = .ok es ∧
      (Layout.Collides ds es ∨ Layout.Collides es ds) := by
  have hs : (Settings.mk "general" (-1) 16 "").flaw? = none := by decide +kernel
  have ht : (ofBinary64 ⟨0x41B8000000000000⟩).render 16
      (Settings.mk "general" (-1) 16 "").options = .ok "1.8e7" := by decide +kernel
  have hu : (ofBinary64 ⟨0x3FF8E70000000000⟩).render 16
      (Settings.mk "general" (-1) 16 "").options = .ok "1.8e7" := by decide +kernel
  obtain ⟨ds, es, t, u, hds, hes, hxt, hyu, hiff⟩ :=
    same_text_iff ⟨"general", -1, 16, ""⟩ hs rfl ⟨0x41B8000000000000⟩ ⟨0x3FF8E70000000000⟩
      (by decide) (by decide) (by decide) (by decide)
  have htu : t = u :=
    (Except.ok.inj (hxt.symm.trans ht)).trans (Except.ok.inj (hyu.symm.trans hu)).symm
  rcases hiff.mp htu with heq | ⟨-, -, -, hcol⟩
  · exact absurd heq (by decide)
  · exact ⟨hs, ds, es, hds, hes, hcol⟩

end Decomposition

end Numerals
