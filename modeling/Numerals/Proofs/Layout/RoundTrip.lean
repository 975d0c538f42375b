import Numerals.Proofs.Binary.Literal
import Numerals.Proofs.Digits.Shortest
import Numerals.Proofs.Layout.Shortest

/-!
# Texts of doubles are read back

The text of a double with all its digits is read as this double, in every style. There are two
exceptions: NaNs have no payload in texts, and zero has no sign in the ECMA style.
-/

namespace Numerals

open FloatFormat (binary64)

variable {x : Binary64}

/-! ## The decimal digits of a double -/

namespace Scale

theorem Generated.digitsBelow {b : Radix} {c : Scale} {es : List ℕ}
    (hgen : Generated b.val c es) : Layout.DigitsBelow b.val (es.map Nat.toUInt8) := by
  refine ⟨radix_pos b, by simpa using hgen.ne_nil, ?_⟩
  rw [Digits.toNat_digits hgen.digits_lt]
  exact hgen.digits_lt

theorem Generated.ne_zero {b : Radix} {c : Scale} {es : List ℕ} (hgen : Generated b.val c es) :
    es.map Nat.toUInt8 ≠ [0] := by
  intro hzero
  have hdigits := Digits.toNat_digits hgen.digits_lt
  rw [hzero] at hdigits
  rw [← hdigits] at hgen
  exact absurd hgen.last_pos (by decide)

end Scale

namespace Decomposition

theorem isNegative_signOf (negative : Bool) {m : ℕ} {e : ℤ} :
    (Decomposition.mk m e (signOf negative)).isNegative = negative := by
  cases negative
  · rfl
  · rfl

theorem ofBinary64_of_isZero (hz : x.isZero) : ofBinary64 x = ⟨0, 0, signOf x.isNegative⟩ := by
  have hrank := Binary64.isZero_iff.mp hz
  have hfin : x.rank < binary64.infinityWord := by
    rw [hrank]
    decide
  unfold ofBinary64
  rw [Binary64.value_of_rank_lt hfin, hrank]
  exact if_pos (by decide)

theorem isNegative_ofBinary64 (hx : x.isFinite) : (ofBinary64 x).isNegative = x.isNegative := by
  cases hz : x.isZero
  · rw [ofBinary64_eq hx hz, isNegative_signOf]
  · rw [ofBinary64_of_isZero hz, isNegative_signOf]

theorem exponent_ne_markExponent (hx : x.isFinite) : (ofBinary64 x).exponent ≠ markExponent := by
  cases hz : x.isZero
  · have hhi := (ofBinary64_bounds hx hz).2.2.2
    unfold markExponent
    omega
  · rw [ofBinary64_of_isZero hz]
    exact (by decide : (0 : ℤ) ≠ markExponent)

/-- The decimal digits of a finite double lie in the interval of its rank. Only zero has a digit 0
alone. -/
theorem generate_decimal (hx : x.isFinite) :
    ∃ ds k, Digits.generate (ofBinary64 x) 10 = .ok ⟨ds, k, 10⟩ ∧ Layout.DigitsBelow 10 ds ∧
      k.natAbs ≤ 1074 ∧ Digits.value ⟨ds, k, 10⟩ ∈ binary64.rankInterval x.rank ∧
      (ds = [0] ↔ x.isZero) := by
  cases hz : x.isZero
  · obtain ⟨k, ds, hscale, hgen, hrun, -⟩ := generate_generated hx hz .ten
    obtain ⟨hk, hk'⟩ := exponent_bounds hx hz hscale
    have hmem := value_mem_roundingInterval hgen
    rw [roundingInterval_eq hx hz] at hmem
    exact ⟨_, k, hrun, Scale.Generated.digitsBelow (b := .ten) hgen, by omega, hmem,
      by simpa using Scale.Generated.ne_zero (b := .ten) hgen⟩
  · have hmem := binary64.zero_mem_rankInterval
    refine ⟨[0], 0, ?_, ⟨by decide, by decide, by decide⟩, by decide, ?_, by simp⟩
    · rw [ofBinary64_of_isZero hz]
      rfl
    · rw [Binary64.isZero_iff.mp hz]
      simpa [Digits.value, properFraction] using hmem

theorem ofBinary64_of_isNaN (h : x.isNaN) : ofBinary64 x = ⟨nanMantissa, markExponent, -1⟩ := by
  have hvalue : x.value = .nan := by simpa [Binary64.isNaN] using h
  unfold ofBinary64
  rw [hvalue]

theorem ofBinary64_of_rank_eq (h : x.rank = binary64.infinityWord) :
    ofBinary64 x = ⟨infinityMantissa, markExponent, signOf x.isNegative⟩ := by
  unfold ofBinary64
  rw [Binary64.value_of_rank_eq h]

theorem render_of_isNaN (h : x.isNaN) (radix : ℤ) (o : Options) :
    (ofBinary64 x).render radix o = .ok "NaN" := by
  rw [ofBinary64_of_isNaN h]
  rfl

theorem render_of_rank_eq (h : x.rank = binary64.infinityWord) (radix : ℤ) (o : Options) :
    (ofBinary64 x).render radix o = .ok (if x.isNegative then "-Infinity" else "Infinity") := by
  rw [ofBinary64_of_rank_eq h]
  cases x.isNegative
  · rfl
  · rfl

/-- The text of a finite double is the text of its digits. -/
theorem render_of_isFinite (hx : x.isFinite) {radix : ℤ} (o : Options) {ds : Digits}
    (hds : Digits.generate (.ofBinary64 x) radix = .ok ds) :
    (ofBinary64 x).render radix o = ds.render x.isNegative o := by
  have hexp := exponent_ne_markExponent hx
  unfold render
  rw [if_neg (by simp [isNaN, hexp]), if_neg (by simp [isInfinite, hexp]), hds,
    isNegative_ofBinary64 hx]
  rfl

end Decomposition

/-! ## Rendering -/

namespace Binary64

theorem render_of_isNaN (h : x.isNaN) (o : Options) : x.render o = .ok "NaN" :=
  Decomposition.render_of_isNaN h 10 o

theorem render_of_rank_eq (h : x.rank = binary64.infinityWord) (o : Options) :
    x.render o = .ok (if x.isNegative then "-Infinity" else "Infinity") :=
  Decomposition.render_of_rank_eq h 10 o

theorem render_of_isFinite (hx : x.isFinite) (o : Options) {ds : Digits}
    (hds : Digits.generate (.ofBinary64 x) 10 = .ok ds) :
    x.render o = ds.render x.isNegative o :=
  Decomposition.render_of_isFinite hx o hds

/-! ## Reading back -/

/-- What the text of `x` in the style `s` is read as: `x` itself, but every NaN as the same one, and
zero without a sign in the ECMA style. -/
def readBack (x : Binary64) (s : Style) : Binary64 :=
  if x.isNaN then .nan else if s = .ecma ∧ x.isNegativeZero then ⟨0⟩ else x

theorem readBack_of_isNaN (h : x.isNaN) (s : Style) : x.readBack s = .nan :=
  if_pos h

theorem readBack_of_ne (h : x.isNaN = false) {s : Style} (hs : s = .ecma → x.isZero = false) :
    x.readBack s = x := by
  have hzero : ¬ (s = .ecma ∧ x.isNegativeZero) := by
    rintro ⟨hecma, hneg⟩
    simp [isNegativeZero, hs hecma] at hneg
  unfold readBack
  rw [h, if_neg (by decide), if_neg hzero]

theorem readBack_ecma_of_isZero (hz : x.isZero) : x.readBack .ecma = ⟨0⟩ := by
  have hrank := isZero_iff.mp hz
  have hnan : ¬ x.isNaN := by
    rw [isNaN_iff, hrank]
    decide
  unfold readBack
  rw [if_neg hnan]
  split_ifs with hneg
  · rfl
  · have hpos : x.isNegative = false := by simpa [isNegativeZero, hz] using hneg
    exact ext_of_rank (by rw [hpos]; decide) (by rw [hrank]; decide)

theorem readsAs_nan : ReadsAs "NaN" .nan :=
  ⟨by decide, by decide⟩

theorem readsAs_infinity (h : x.rank = binary64.infinityWord) :
    ReadsAs (if x.isNegative then "-Infinity" else "Infinity") x := by
  have hbits := x.bits_eq_withSign
  rw [h] at hbits
  have hx : x = ⟨(binary64.withSign x.isNegative binary64.infinityWord).toUInt64⟩ := by
    rw [← hbits]
    simp
  cases hneg : x.isNegative
  · rw [hneg] at hx
    rw [hx]
    exact ⟨by decide, by decide⟩
  · rw [hneg] at hx
    rw [hx]
    exact ⟨by decide, by decide⟩

theorem render_ecma_of_isZero (hz : x.isZero) (p : ℤ) : x.render ⟨.ecma, p⟩ = .ok "0" := by
  have hds : Digits.generate (.ofBinary64 x) 10 = .ok ⟨[0], 0, 10⟩ := by
    rw [Decomposition.ofBinary64_of_isZero hz]
    rfl
  have hx : x.isFinite := by
    rw [isFinite_iff, isZero_iff.mp hz]
    decide
  rw [render_of_isFinite hx _ hds]
  rfl

/-- The text of a finite double is a numeral in its interval, after a minus sign if it is
negative. -/
theorem render_finite (hx : x.isFinite) {o : Options} (hs : o.style ∈ Style.named)
    (hp : o.style ≠ .ecma → o.precision < 0) (hz : o.style = .ecma → x.isZero = false) :
    ∃ body q, x.render o = .ok (String.ofList (Text.signedChars x.isNegative body)) ∧
      Text.Denotes 10 body 1075 q ∧ q ∈ binary64.rankInterval x.rank := by
  obtain ⟨ds, k, hgen, hdigits, hk, hmem, hzero⟩ := Decomposition.generate_decimal hx
  have hleast : LongWord.least < k := by
    unfold LongWord.least
    omega
  have hecma : o.style = .ecma → 10 = 10 ∧ ds ≠ [0] := by
    intro hstyle
    refine ⟨rfl, fun hds => ?_⟩
    rw [hz hstyle] at hzero
    exact absurd (hzero.mp hds) (by decide)
  obtain ⟨body, hbody, hdenotes⟩ :=
    Layout.render_denotes hdigits (by decide) hleast (by omega) hs hp hecma x.isNegative
  refine ⟨body, _, ?_, hdenotes.mono (by omega), hmem⟩
  rw [render_of_isFinite hx o hgen]
  exact hbody

/-- A double is a NaN, an infinity or finite. -/
theorem classes (x : Binary64) :
    x.isNaN ∨ (x.rank = binary64.infinityWord ∧ x.isNaN = false ∧ x.isInfinite) ∨
      (x.isFinite ∧ x.isNaN = false ∧ x.isInfinite = false) := by
  rcases Nat.lt_trichotomy x.rank binary64.infinityWord with h | h | h
  · have hx := isFinite_iff.mpr h
    refine .inr (.inr ⟨hx, ?_⟩)
    simpa [isFinite] using hx
  · refine .inr (.inl ⟨h, ?_, ?_⟩)
    · rw [isNaN, value_of_rank_eq h]
      exact decide_eq_false (by simp)
    · rw [isInfinite, value_of_rank_eq h]
  · exact .inl (isNaN_iff.mpr h)

theorem render_readsAs (x : Binary64) {o : Options} (hs : o.style ∈ Style.named)
    (hp : o.style ≠ .ecma → o.precision < 0) :
    ∃ t, x.render o = .ok t ∧ ReadsAs t (x.readBack o.style) := by
  -- the words for what is not finite, then the zero without a sign, then numerals
  rcases x.classes with hnan | ⟨hinf, hnan, -⟩ | ⟨hx, hnan, -⟩
  · rw [readBack_of_isNaN hnan]
    exact ⟨_, render_of_isNaN hnan o, readsAs_nan⟩
  · have hz : x.isZero = false := by
      rw [Bool.eq_false_iff, ne_eq, isZero_iff, hinf]
      decide
    rw [readBack_of_ne hnan fun _ => hz]
    exact ⟨_, render_of_rank_eq hinf o, readsAs_infinity hinf⟩
  · by_cases hzero : o.style = .ecma ∧ x.isZero
    · obtain ⟨s, p⟩ := o
      obtain ⟨rfl, hz⟩ := hzero
      rw [readBack_ecma_of_isZero hz]
      exact ⟨_, render_ecma_of_isZero hz p, by decide, by decide⟩
    · have hz : o.style = .ecma → x.isZero = false := by simpa using hzero
      obtain ⟨body, q, hbody, hdenotes, hmem⟩ := render_finite hx hs hp hz
      rw [readBack_of_ne hnan hz]
      exact ⟨_, hbody, readsAs_of_denotes hdenotes (by decide) hx hmem⟩

/-! ## Texts marked as fractions -/

theorem toText_eq {t : String} (h : x.render .default = .ok t) : x.toText = .ok t := by
  unfold toText
  rw [h]
  rfl

/-- A finite double is marked as a fraction if its text does not show that it is one. -/
theorem toEcmaText_eq {t : String} (h : x.render ⟨.ecma, 0⟩ = .ok t) :
    x.toEcmaText = .ok (if x.isFinite ∧ '.' ∉ t.toList ∧ 'e' ∉ t.toList then t ++ ".0" else t) := by
  have hmark : (x.isNaN || x.isInfinite || t.toList.any (fun c => c = '.' || c = 'e')) = true ↔
      ¬ (x.isFinite ∧ '.' ∉ t.toList ∧ 'e' ∉ t.toList) := by
    have hany : (t.toList.any fun c => c = '.' || c = 'e') = true ↔
        ¬ ('.' ∉ t.toList ∧ 'e' ∉ t.toList) := by
      rw [List.any_eq_true]
      constructor
      · rintro ⟨c, hc, heq⟩ ⟨hpoint, hexp⟩
        rcases (by simpa using heq : c = '.' ∨ c = 'e') with rfl | rfl
        · exact hpoint hc
        · exact hexp hc
      · intro hmem
        rcases not_and_or.mp hmem with hpoint | hexp
        · exact ⟨'.', not_not.mp hpoint, by decide⟩
        · exact ⟨'e', not_not.mp hexp, by decide⟩
    rw [Bool.or_eq_true, hany, isFinite]
    cases x.isNaN <;> cases x.isInfinite <;> simp
  unfold toEcmaText
  rw [h]
  change (if (x.isNaN || x.isInfinite || t.toList.any (fun c => c = '.' || c = 'e')) = true
    then Except.ok t else Except.ok (t ++ ".0")) = _
  by_cases hfin : x.isFinite ∧ '.' ∉ t.toList ∧ 'e' ∉ t.toList
  · rw [if_pos hfin, if_neg (hmark.not.mpr (not_not.mpr hfin))]
  · rw [if_neg hfin, if_pos (hmark.mpr hfin)]

theorem toEcmaText_readsAs (x : Binary64) :
    ∃ t, x.toEcmaText = .ok t ∧ ReadsAs t (x.readBack .ecma) ∧
      (x.isFinite → '.' ∈ t.toList ∨ 'e' ∈ t.toList) := by
  obtain ⟨t, hrender, hread⟩ := x.render_readsAs (o := ⟨.ecma, 0⟩) (by decide) (by simp)
  rw [toEcmaText_eq hrender]
  split_ifs with hmark
  · -- the text is that of a whole number, and a fraction is added to it
    obtain ⟨hx, hpoint, hexp⟩ := hmark
    refine ⟨_, rfl, ?_, fun _ => .inl (by simp)⟩
    cases hz : x.isZero
    · obtain ⟨body, q, hbody, hdenotes, hmem⟩ := render_finite hx (o := ⟨.ecma, 0⟩) (by decide)
        (by simp) (fun _ => hz)
      obtain rfl := Except.ok.inj (hrender.symm.trans hbody)
      rw [String.toList_ofList, Text.mem_signedChars (by decide)] at hpoint hexp
      have hnan : x.isNaN = false := by
        simp [isFinite] at hx
        exact hx.1
      have hmarked := Layout.denotes_point_zero (by decide) hdenotes hpoint hexp
      have htext : String.ofList (Text.signedChars x.isNegative body) ++ ".0" =
          String.ofList (Text.signedChars x.isNegative (body ++ ['.', '0'])) := by
        rw [← Text.signedChars_append, String.ofList_append]
      rw [htext, readBack_of_ne hnan fun _ => hz]
      exact readsAs_of_denotes hmarked (by decide) hx hmem
    · rw [readBack_ecma_of_isZero hz]
      obtain rfl := Except.ok.inj (hrender.symm.trans (render_ecma_of_isZero hz 0))
      exact ⟨by decide, by decide⟩
  · refine ⟨t, rfl, hread, fun hx => ?_⟩
    by_contra hno
    exact hmark ⟨hx, not_or.mp hno⟩

/-! ## Main statement -/

/-- Every double has a text in every style with all its digits, and both readers read it as the
double itself, up to the payload of a NaN and the sign of zero in the ECMA style. The same is true
of the plain text of a double, and of its ECMA text marked as a fraction, which has a point or an
exponent if the double is finite. -/
theorem texts_read_back (x : Binary64) :
    (∀ s ∈ Style.named, ∀ p < 0, ∃ t, x.render ⟨s, p⟩ = .ok t ∧ ReadsAs t (x.readBack s)) ∧
      (∃ t, x.toText = .ok t ∧ ReadsAs t (x.readBack .general)) ∧
      ∃ t, x.toEcmaText = .ok t ∧ ReadsAs t (x.readBack .ecma) ∧
        (x.isFinite → '.' ∈ t.toList ∨ 'e' ∈ t.toList) := by
  refine ⟨?_, ?_, x.toEcmaText_readsAs⟩
  · intro s hs p hp
    exact x.render_readsAs (o := ⟨s, p⟩) hs fun _ => hp
  · obtain ⟨t, ht, hread⟩ := x.render_readsAs (o := .default) (by decide) fun _ => by decide
    exact ⟨t, toText_eq ht, hread⟩

/-- The negative zero loses its sign in the ECMA style and keeps it in the fixed one; the least
subnormal double is not read back as zero. -/
theorem texts_read_back_around_zero :
    Style.ecma ∈ Style.named ∧ Style.fixed ∈ Style.named ∧ (-1 : ℤ) < 0 ∧
      (∃ t, (Binary64.mk 0x8000000000000000).render ⟨.ecma, -1⟩ = .ok t ∧ ReadsAs t ⟨0⟩) ∧
      (∃ t, (Binary64.mk 0x8000000000000000).render ⟨.fixed, -1⟩ = .ok t ∧
        ReadsAs t ⟨0x8000000000000000⟩) ∧
      ∃ t, (Binary64.mk 1).render ⟨.fixed, -1⟩ = .ok t ∧ ReadsAs t ⟨1⟩ := by
  obtain ⟨hzero, -⟩ := texts_read_back ⟨0x8000000000000000⟩
  obtain ⟨hleast, -⟩ := texts_read_back ⟨1⟩
  exact ⟨by decide, by decide, by decide, hzero .ecma (by decide) (-1) (by decide),
    hzero .fixed (by decide) (-1) (by decide), hleast .fixed (by decide) (-1) (by decide)⟩

end Binary64

end Numerals
