import Numerals.Proofs.Digits.Closest
import Numerals.Proofs.Layout.RoundTrip

/-!
# The definition of ECMAScript

ECMAScript defines the text of a number by a choice among the decimals that are read as it: as few
digits as possible, then the closest to the number, then an even one. Main statement: exactly one
decimal is chosen for every finite double other than zero, and the ECMA style writes this one.
-/

namespace Numerals

/-- A decimal `s · 10 ^ (n - k)` whose `s` has `k` digits. -/
structure EcmaDecimal where
  s : ℕ
  k : ℕ
  n : ℤ
deriving DecidableEq, Repr

namespace EcmaDecimal

/-- The number that a decimal is. -/
def value (c : EcmaDecimal) : ℚ :=
  c.s * 10 ^ (c.n - c.k)

/-- `c` has the number of digits that it says, and is read as the absolute value of `x`. -/
structure IsCandidate (c : EcmaDecimal) (x : Binary64) : Prop where
  one_le : 1 ≤ c.k
  le : 10 ^ (c.k - 1) ≤ c.s
  lt : c.s < 10 ^ c.k
  reads : x.abs.IsNearest c.value

/-- The distance of a decimal from the absolute value of `x`. -/
def distance (c : EcmaDecimal) (x : Binary64) : ℚ :=
  |(c.value - |x.toRat|)|

/-- `c` is the decimal by which the text of `x` is defined. -/
structure IsChosen (c : EcmaDecimal) (x : Binary64) : Prop extends IsCandidate c x where
  fewest : ∀ c', IsCandidate c' x → c.k ≤ c'.k
  closest : ∀ c', IsCandidate c' x → c'.k = c.k → c.distance x ≤ c'.distance x
  even : ∀ c', IsCandidate c' x → c'.k = c.k → c' ≠ c → c.distance x = c'.distance x → c.s % 2 = 0

/-- The text of a decimal, without a sign. -/
def text (c : EcmaDecimal) : List Char :=
  let digits := Text.decimalNat c.s
  if c.k ≤ c.n ∧ c.n ≤ 21 then digits ++ List.replicate (c.n - c.k).toNat '0'
  else if 0 < c.n ∧ c.n ≤ 21 then digits.take c.n.toNat ++ '.' :: digits.drop c.n.toNat
  else if -6 < c.n ∧ c.n ≤ 0 then '0' :: '.' :: List.replicate (-c.n).toNat '0' ++ digits
  else
    digits.take 1 ++ (if c.k = 1 then [] else '.' :: digits.drop 1) ++
      'e' :: (if 0 < c.n - 1 then '+' else '-') :: Text.decimalNat (c.n - 1).natAbs

/-! ## The text of generated digits -/

variable {ds : List UInt8} {k : ℤ}

theorem exponentText_eq (e : ℤ) (he : e ≠ 0) :
    (if 0 ≤ e then ['+'] else []) ++ Text.decimalInt e =
      (if 0 < e then '+' else '-') :: Text.decimalNat e.natAbs := by
  cases e with
  | ofNat n =>
    have hnonneg : 0 ≤ Int.ofNat n := Int.natCast_nonneg n
    rw [if_pos hnonneg, if_pos (lt_of_le_of_ne hnonneg he.symm)]
    rfl
  | negSucc n =>
    rw [if_neg (by omega), if_neg (by omega)]
    rfl

/-- The layout of digits is the text of the decimal that they are. -/
theorem ecma_eq_text
    (hchars : Digits.chars ds = Text.decimalNat (wholeNumber 10 (ds.map UInt8.toNat)))
    (hne : ds ≠ []) (hk : LongWord.least < k) (hk' : k < 9223372036854775808) :
    Layout.ecma ds k = text ⟨wholeNumber 10 (ds.map UInt8.toNat), ds.length, k⟩ := by
  have htake : ∀ m, Digits.chars (ds.take m) = (Digits.chars ds).take m := fun m => List.map_take
  have hdrop : ∀ m, Digits.chars (ds.drop m) = (Digits.chars ds).drop m := fun m => List.map_drop
  have hlen := List.length_pos_iff.mpr hne
  unfold Layout.ecma text Layout.zeros
  rw [Layout.wrap_pred hk hk']
  simp only [htake, hdrop, hchars]
  by_cases hwhole : ds.length ≤ k ∧ k ≤ 21
  · rw [if_pos hwhole, if_pos hwhole]
    congr 2
    omega
  rw [if_neg hwhole, if_neg hwhole]
  by_cases hinside : 0 < k ∧ k ≤ 21
  · rw [if_pos hinside, if_pos hinside]
  rw [if_neg hinside, if_neg hinside]
  by_cases hleading : -6 < k ∧ k ≤ 0
  · rw [if_pos hleading, if_pos hleading]
  · rw [if_neg hleading, if_neg hleading, ← exponentText_eq (k - 1) (by omega)]
    simp only [List.append_assoc, List.cons_append]
    congr 2
    by_cases hone : ds.length = 1
    · rw [if_pos hone, if_neg (by omega)]
    · rw [if_neg hone, if_pos (by omega)]

/-! ## The choice -/

section Choice

open Decomposition (ofBinary64)

variable {x : Binary64} {es : List ℕ}

theorem isCandidate_iff (hx : x.isFinite) (hz : x.isZero = false) (c : EcmaDecimal) :
    c.IsCandidate x ↔ 1 ≤ c.k ∧ 10 ^ (c.k - 1) ≤ c.s ∧ c.s < 10 ^ c.k ∧
      c.value ∈ (ofBinary64 x).roundingInterval := by
  rw [Decomposition.mem_roundingInterval_iff hx hz]
  exact ⟨fun h => ⟨h.one_le, h.le, h.lt, h.reads⟩, fun h => ⟨h.1, h.2.1, h.2.2.1, h.2.2.2⟩⟩

theorem distance_eq (hx : x.isFinite) (hz : x.isZero = false) (c : EcmaDecimal) :
    c.distance x = |c.value - (ofBinary64 x).magnitude| := by
  rw [distance, Decomposition.magnitude_ofBinary64 hx hz]

/-- The decimal that digits with an exponent are. -/
def ofDigits (es : List ℕ) (k : ℤ) : EcmaDecimal :=
  ⟨wholeNumber 10 es, es.length, k⟩

variable (hx : x.isFinite) (hz : x.isZero = false)
  (hscale : Scale.AtScale .ten (ofBinary64 x).scale k)
  (hgen : Scale.Generated 10 ((ofBinary64 x).scale.atExponent .ten k) es)
include hx hz hscale hgen

theorem ofDigits_isCandidate : (ofDigits es k).IsCandidate x := by
  obtain ⟨d, tl, rfl, hd⟩ := Scale.Generated.head_pos (b := .ten) hgen hscale.one_le_upper
  rw [isCandidate_iff hx hz]
  refine ⟨Nat.succ_le_succ (Nat.zero_le _), pow_le_wholeNumber hd,
    wholeNumber_lt hgen.digits_lt, ?_⟩
  rw [← Decomposition.span_scale]
  exact Scale.Generated.whole_mem (b := .ten) hgen

/-- No candidate has fewer digits than the generated ones. -/
theorem ofDigits_fewest {c : EcmaDecimal} (hc : c.IsCandidate x) : es.length ≤ c.k := by
  obtain ⟨-, hle, hlt, hmem⟩ := (isCandidate_iff hx hz c).mp hc
  have hpos : 0 < c.s := lt_of_lt_of_le (Nat.pow_pos (by decide)) hle
  by_contra hfew
  rw [← Decomposition.span_scale] at hmem
  exact Scale.Generated.not_mem_of_fewer (b := .ten) hscale hgen hpos hlt (not_le.mp hfew) _ hmem

/-- Every other candidate with as many digits is farther away, or as far away and odd. -/
theorem ofDigits_closest {c : EcmaDecimal} (hc : c.IsCandidate x) (hk : c.k = es.length)
    (hne : c ≠ ofDigits es k) :
    (ofDigits es k).distance x < c.distance x ∨
      (ofDigits es k).distance x = c.distance x ∧ (ofDigits es k).s % 2 = 0 ∧ c.s % 2 = 1 := by
  obtain ⟨-, hle, hlt, hmem⟩ := (isCandidate_iff hx hz c).mp hc
  obtain ⟨s, k', n⟩ := c
  obtain rfl : k' = es.length := hk
  rw [distance_eq hx hz, distance_eq hx hz]
  apply Decomposition.closest_cases hx hz hscale hgen hle hlt hmem
  rintro ⟨rfl, rfl⟩
  exact hne rfl

theorem ofDigits_isChosen : (ofDigits es k).IsChosen x := by
  refine ⟨ofDigits_isCandidate hx hz hscale hgen, ?_, ?_, ?_⟩
  · intro c hc
    exact ofDigits_fewest hx hz hscale hgen hc
  · intro c hc hk
    by_cases hne : c = ofDigits es k
    · rw [hne]
    · rcases ofDigits_closest hx hz hscale hgen hc hk hne with h | ⟨h, -⟩
      · exact h.le
      · exact h.le
  · intro c hc hk hne htie
    rcases ofDigits_closest hx hz hscale hgen hc hk hne with h | ⟨-, heven, -⟩
    · exact absurd htie h.ne
    · exact heven

/-- A chosen decimal is the generated one: it has as many digits, and is not farther away; if it is
as far away, it is not odd. -/
theorem IsChosen.eq_ofDigits {c : EcmaDecimal} (hc : c.IsChosen x) : c = ofDigits es k := by
  have hcand := ofDigits_isCandidate hx hz hscale hgen
  have hk : c.k = es.length :=
    le_antisymm (hc.fewest _ hcand) (ofDigits_fewest hx hz hscale hgen hc.toIsCandidate)
  by_contra hne
  -- by each rule the generated decimal would be preferred to another one
  rcases ofDigits_closest hx hz hscale hgen hc.toIsCandidate hk hne with h | ⟨htie, -, hodd⟩
  · exact absurd (hc.closest _ hcand hk.symm) (not_le.mpr h)
  · have heven := hc.even _ hcand hk.symm (Ne.symm hne) htie.symm
    omega

end Choice

end EcmaDecimal

namespace Binary64

variable {x : Binary64}

theorem isNegative_eq (hx : x.isFinite) (hz : x.isZero = false) :
    x.isNegative = decide (x.toRat < 0) := by
  have hpos := FloatFormat.binary64.rankValue_pos (rank_pos hz)
  rw [toRat_of_isFinite hx]
  cases x.isNegative
  · simp [hpos.le]
  · simp [hpos]

/-- The layout of the generated digits is the text of the decimal that they are. -/
theorem ecma_generated (hx : x.isFinite) (hz : x.isZero = false) {k : ℤ} {es : List ℕ}
    (hscale : Scale.AtScale .ten (Decomposition.ofBinary64 x).scale k)
    (hgen : Scale.Generated 10 ((Decomposition.ofBinary64 x).scale.atExponent .ten k) es) :
    Layout.ecma (es.map Nat.toUInt8) k = (EcmaDecimal.ofDigits es k).text := by
  obtain ⟨hk, hk'⟩ := Decomposition.exponent_bounds hx hz hscale
  obtain ⟨d, tl, rfl, hd⟩ := Scale.Generated.head_pos (b := .ten) hgen hscale.one_le_upper
  have hdigits := Digits.toNat_digits (b := .ten) hgen.digits_lt
  have hchars : Digits.chars ((d :: tl).map Nat.toUInt8) =
      Text.decimalNat (wholeNumber 10 (d :: tl)) := by
    rw [Layout.chars_eq, hdigits, Text.decimalNat_wholeNumber hgen.digits_lt (by simpa using hd)]
  rw [EcmaDecimal.ecma_eq_text (by rw [hdigits]; exact hchars) (by simp)
    (by unfold LongWord.least; omega) (by omega), hdigits, List.length_map]
  rfl

/-! ## Main statement -/

/-- For a finite double other than zero exactly one decimal is chosen, and its text, after a minus
sign if the double is negative, is what the ECMA style writes, whatever the precision. Zero of
either sign is written `0`. -/
theorem render_ecma_chosen (x : Binary64) (hx : x.isFinite) (p : ℤ) :
    (x.isZero → x.render ⟨.ecma, p⟩ = .ok "0") ∧
      (x.isZero = false →
        (∃! c : EcmaDecimal, c.IsChosen x) ∧
        ∀ c : EcmaDecimal, c.IsChosen x →
          x.render ⟨.ecma, p⟩ = .ok (String.ofList (Text.signedChars (x.toRat < 0) c.text))) := by
  refine ⟨fun hz => render_ecma_of_isZero hz p, fun hz => ?_⟩
  obtain ⟨k, es, hscale, hgen, hrun, -⟩ := Decomposition.generate_generated hx hz .ten
  have hchosen := EcmaDecimal.ofDigits_isChosen hx hz hscale hgen
  have hunique : ∀ c : EcmaDecimal, c.IsChosen x → c = .ofDigits es k :=
    fun c hc => hc.eq_ofDigits hx hz hscale hgen
  refine ⟨⟨_, hchosen, hunique⟩, fun c hc => ?_⟩
  have hbelow := Scale.Generated.digitsBelow (b := .ten) hgen
  have hnonzero := Scale.Generated.ne_zero (b := .ten) hgen
  rw [hunique c hc, ← isNegative_eq hx hz, ← ecma_generated hx hz hscale hgen,
    render_of_isFinite hx _ hrun]
  exact Layout.render_ecma_eq hbelow hnonzero x.isNegative p

/-- The double next to `10 ^ (-323)`, whose rounding interval also has `9 · 10 ^ (-324)` in it, has
one chosen decimal, and the negative zero is written without its sign. -/
theorem render_ecma_chosen_subnormal :
    (Binary64.mk 2).isFinite ∧ (Binary64.mk 2).isZero = false ∧
      (∃! c : EcmaDecimal, c.IsChosen ⟨2⟩) ∧
      (∀ c : EcmaDecimal, c.IsChosen ⟨2⟩ → (Binary64.mk 2).render ⟨.ecma, -1⟩ =
        .ok (String.ofList (Text.signedChars ((Binary64.mk 2).toRat < 0) c.text))) ∧
      (Binary64.mk 0x8000000000000000).isZero ∧
      (Binary64.mk 0x8000000000000000).render ⟨.ecma, -1⟩ = .ok "0" := by
  obtain ⟨-, hnonzero⟩ := render_ecma_chosen ⟨2⟩ (by decide) (-1)
  obtain ⟨hzero, -⟩ := render_ecma_chosen ⟨0x8000000000000000⟩ (by decide) (-1)
  obtain ⟨hunique, htext⟩ := hnonzero (by decide)
  exact ⟨by decide, by decide, hunique, htext, by decide, hzero (by decide)⟩

end Binary64

end Numerals
