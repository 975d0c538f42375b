import Numerals.Proofs.Layout.Written

/-!
# Every double has a text

With valid settings every double has a text. Rounding keeps digits below the radix, so that all of
them have characters, and the lists of digits that a precision asks for are not too long: a double
has at most one digit more than are generated, and its exponent is bounded. A precision that leaves
no room for such a list (`HasRoom`, `roundedLength`) is a crash.
-/

namespace Numerals

theorem Result.exists_of_bind {α β : Type} {x : Result α} {f : α → Result β} {y : β}
    (h : x >>= f = .ok y) : ∃ a, x = .ok a ∧ f a = .ok y := by
  cases x with
  | error e => cases h
  | ok a => exact ⟨a, rfl, h⟩

/-! ## Rounding -/

namespace Layout

variable {b : ℕ} {ds : List UInt8}

theorem increment_lt (hb : 0 < b) (h : ∀ d ∈ ds, d.toNat < b) :
    ∀ d ∈ (increment b ds).2, d.toNat < b := by
  induction ds with
  | nil => simp [increment]
  | cons d ds ih =>
    obtain ⟨hd, hds⟩ := List.forall_mem_cons.mp h
    have hrest := ih hds
    rw [increment]
    split
    · rename_i out heq
      rw [heq] at hrest
      exact List.forall_mem_cons.mpr ⟨hd, hrest⟩
    · rename_i out heq
      rw [heq] at hrest
      split_ifs with hlt
      · exact List.forall_mem_cons.mpr ⟨by exact_mod_cast hlt, hrest⟩
      · exact List.forall_mem_cons.mpr ⟨hb, hrest⟩

/-- Digits of a base are so with zeros before them. -/
theorem DigitsBelow.padded (h : DigitsBelow b ds) (n : ℕ) :
    ∀ d ∈ List.replicate n 0 ++ ds, d.toNat < b := by
  intro d hd
  rcases List.mem_append.mp hd with hd | hd
  · rw [List.eq_of_mem_replicate hd]
    exact h.pos
  · exact h.toNat_lt d hd

theorem roundTo_lt (hb : 2 ≤ b) (h : ∀ d ∈ ds, d.toNat < b) (n : ℕ) :
    ∀ d ∈ (roundTo b n ds).2, d.toNat < b := by
  have htake : ∀ d ∈ ds.take n, d.toNat < b := fun d hd => h d (List.mem_of_mem_take hd)
  unfold roundTo
  split_ifs with hlen hup
  · rw [List.forall_mem_append]
    refine ⟨h, fun d hd => ?_⟩
    rw [List.eq_of_mem_replicate hd]
    exact Nat.lt_of_lt_of_le (by decide) hb
  · have hincrement := increment_lt (by omega) htake
    split
    · rename_i out heq
      rwa [heq] at hincrement
    · rename_i out heq
      rw [heq] at hincrement
      exact List.forall_mem_cons.mpr ⟨hb, hincrement⟩
  · exact htake

theorem demandLength_of_le {n : ℤ} (h : n ≤ maxLength) : demandLength n = .ok () :=
  if_pos h

theorem demandLength_of_lt {n : ℤ} (h : maxLength < n) :
    demandLength n = .error (.raised (.listTooLong n)) :=
  if_neg (not_le.mpr h)

end Layout

/-! ## The number of digits -/

namespace Scale

variable {b : Radix}

theorem length_run {left : ℕ} {c : Scale} {ds : List ℕ} (h : run b left c = .ok ds) :
    ds.length ≤ left := by
  induction left generalizing c ds with
  | zero => cases h
  | succ left ih =>
    rw [run_succ] at h
    split_ifs at h
    · cases h
    · split at h
      · cases hrun : run b left (rest b c) with
        | error e => simp [hrun, Except.map] at h
        | ok es =>
          rw [hrun] at h
          cases h
          exact Nat.succ_le_succ (ih hrun)
      all_goals
        cases h
        simp

theorem length_carry (n : ℕ) (ds : List ℕ) : (carry n ds).2.length = ds.length := by
  induction ds with
  | nil => rfl
  | cons d ds ih =>
    rw [carry]
    split_ifs <;> simp [ih]

theorem length_dropZeros (ds : List ℕ) : (dropZeros ds).length ≤ ds.length := by
  induction ds with
  | nil => exact le_rfl
  | cons d ds ih =>
    rw [dropZeros]
    split
    · split_ifs <;> simp
    · rename_i e es heq
      rw [heq] at ih
      simpa using ih

/-- A carry out of the first digit makes the sequence longer by one. -/
theorem length_finish {k : ℤ} {ds : List ℕ} {out : Digits} (h : finish b k ds = .ok out) :
    out.digits.length ≤ ds.length + 1 := by
  have hlen := length_carry b.val ds
  unfold finish at h
  generalize carry b.val ds = carried at h hlen
  obtain ⟨c, es⟩ := carried
  cases c with
  | zero =>
    dsimp only at h
    split at h
    · cases h
    · cases h
    · rename_i d es hne heq
      cases h
      cases heq
      have hdrop := length_dropZeros es
      simp only [List.length_map, List.length_cons] at hlen ⊢
      omega
  | succ c =>
    cases h
    have hdrop := length_dropZeros es
    simp only [List.length_map, List.length_cons] at hlen ⊢
    omega

theorem length_emit {c : Scale} {k : ℤ} {out : Digits} (h : c.emit b k = .ok out) :
    out.digits.length ≤ maxDigits + 1 := by
  obtain ⟨ds, hrun, hfinish⟩ := Result.exists_of_bind h
  exact (length_finish hfinish).trans (Nat.succ_le_succ (length_run hrun))

end Scale

namespace Digits

theorem length_generate {d : Decomposition} {radix : ℤ} {ds : Digits}
    (h : generate d radix = .ok ds) : ds.digits.length ≤ Scale.maxDigits + 1 := by
  unfold generate at h
  split at h
  · cases h
  · split_ifs at h
    · cases h
    · cases h
      exact Nat.le_add_left 1 Scale.maxDigits
    · obtain ⟨c, -, hscale⟩ := Result.exists_of_bind h
      obtain ⟨r, -, hemit⟩ := Result.exists_of_bind hscale
      exact Scale.length_emit hemit

/-- Digits in base `b` that the layouts can write with any precision that may be asked for. -/
structure Bounded (b : ℕ) (ds : Digits) : Prop where
  radix : ds.radix = b
  below : Layout.DigitsBelow b ds.digits
  lower : -1074 < ds.exponent
  upper : ds.exponent ≤ 1025
  length : ds.digits.length ≤ Scale.maxDigits + 1

end Digits

namespace Layout

variable {b : ℕ} {ds : Digits}

/-- There is room for the digits up to the `p`-th after the point with a carry, and for the zeros
between the point and the digits. -/
structure HasRoom (ds : Digits) (p : ℤ) : Prop where
  places : p + max ds.exponent 0 + 1 ≤ maxLength
  zeros : ds.exponent < 0 → ds.digits.length - ds.exponent ≤ maxLength

theorem fixed_eq_rounded (hb : 2 ≤ b) (hb' : b ≤ 36) (hradix : ds.radix = b)
    (h : DigitsBelow b ds.digits) {p : ℤ} (hp : 0 ≤ p) (hroom : HasRoom ds p) :
    fixed ds p = .ok (fixedRounded b ds.digits ds.exponent p.toNat) := by
  have hchars : demandChars (fixedDigits b ds.digits ds.exponent p.toNat).2 = .ok () :=
    demandChars_of_lt hb' (roundTo_lt hb (h.padded _) _)
  unfold fixed
  rw [if_neg (by omega), demandLength_of_le hroom.places, hradix]
  dsimp only
  rw [hchars]
  split_ifs with hneg
  · rw [demandLength_of_le (hroom.zeros hneg)]
    rfl
  · rfl

theorem fixed_eq_error {p : ℤ} (hp : 0 ≤ p) (hroom : ¬HasRoom ds p) :
    ∃ n, fixed ds p = .error (.raised (.listTooLong n)) := by
  unfold fixed
  rw [if_neg (by omega)]
  by_cases hplaces : p + max ds.exponent 0 + 1 ≤ maxLength
  · -- then the zeros before the digits are too many
    have hneg : ds.exponent < 0 := by
      by_contra hnot
      exact hroom ⟨hplaces, fun hneg => absurd hneg hnot⟩
    have hzeros : ¬ds.digits.length - ds.exponent ≤ maxLength :=
      fun hle => hroom ⟨hplaces, fun _ => hle⟩
    rw [demandLength_of_le hplaces]
    dsimp only
    rw [if_pos hneg, demandLength_of_lt (not_le.mp hzeros)]
    exact ⟨_, rfl⟩
  · rw [demandLength_of_lt (not_le.mp hplaces)]
    exact ⟨_, rfl⟩

theorem scientific_eq_rounded (hb : 2 ≤ b) (hb' : b ≤ 36) (hradix : ds.radix = b)
    (h : DigitsBelow b ds.digits) {p : ℤ} (hp : 0 ≤ p)
    (hroom : ds.isZero = false → p + 2 ≤ maxLength) :
    scientific ds p = .ok (scientificRounded ds p.toNat) := by
  have hchars := demandChars_of_lt hb' (roundTo_lt hb h.toNat_lt (p.toNat + 1))
  unfold scientific
  rw [if_neg (by omega)]
  dsimp only
  split_ifs with hzero
  · have hle := hroom (by simpa using hzero)
    rw [demandLength_of_le (by omega), hradix, hchars]
    rfl
  · rfl

theorem scientific_eq_error {p : ℤ} (hp : 0 ≤ p) (hzero : ds.isZero = false)
    (hroom : maxLength < p + 2) : ∃ n, scientific ds p = .error (.raised (.listTooLong n)) := by
  unfold scientific
  rw [if_neg (by omega)]
  dsimp only
  rw [if_pos (by simp [hzero]), demandLength_of_lt (by omega)]
  exact ⟨_, rfl⟩

theorem hasRoom_of_bounded (h : ds.Bounded b) {p : ℤ}
    (hp : p + max ds.exponent 0 + 1 ≤ maxLength) : HasRoom ds p := by
  have hlower := h.lower
  have hlength := h.length
  unfold Scale.maxDigits at hlength
  refine ⟨hp, fun _ => ?_⟩
  unfold maxLength
  omega

/-- There is a text for every precision that leaves room for the digits before the point. -/
theorem exists_fixed (hb : 2 ≤ b) (hb' : b ≤ 36) (h : ds.Bounded b) {p : ℤ}
    (hp : p + max ds.exponent 0 + 1 ≤ maxLength) : ∃ cs, fixed ds p = .ok cs := by
  by_cases hneg : p < 0
  · exact ⟨_, fixed_eq_ok (k := ds.exponent) h.below hb' hneg ds.radix⟩
  · exact ⟨_, fixed_eq_rounded hb hb' h.radix h.below (not_lt.mp hneg) (hasRoom_of_bounded h hp)⟩

theorem exists_scientific (hb : 2 ≤ b) (hb' : b ≤ 36) (h : ds.Bounded b) {p : ℤ}
    (hp : ds.isZero = false → p + 2 ≤ maxLength) : ∃ cs, scientific ds p = .ok cs := by
  by_cases hneg : p < 0
  · exact ⟨_, scientific_eq_ok (k := ds.exponent) h.below hb' hneg ds.radix⟩
  · exact ⟨_, scientific_eq_rounded hb hb' h.radix h.below (not_lt.mp hneg) hp⟩

/-- The length of the list that the digits of `ds` are rounded in, with the precision `p` and a
carry. Zero has no such list in the scientific layout, and no number has one in the ECMA style. -/
def roundedLength (s : Style) (p : ℤ) (ds : Digits) : ℤ :=
  match resolve s ds.exponent with
  | .fixed => p + max ds.exponent 0 + 1
  | .scientific => if ds.isZero then 0 else p + 2
  | _ => 0

theorem roundedLength_of_fixed {s : Style} (hres : resolve s ds.exponent = .fixed) (p : ℤ) :
    roundedLength s p ds = p + max ds.exponent 0 + 1 := by
  rw [roundedLength, hres]

theorem roundedLength_of_scientific {s : Style} (hres : resolve s ds.exponent = .scientific)
    (p : ℤ) : roundedLength s p ds = if ds.isZero then 0 else p + 2 := by
  rw [roundedLength, hres]

theorem roundedLength_le (h : ds.Bounded b) (s : Style) {p : ℤ} (hp : -1 ≤ p) :
    roundedLength s p ds ≤ p + 1026 := by
  have hupper := h.upper
  unfold roundedLength
  split
  · omega
  · split_ifs <;> omega
  · omega

end Layout

/-! ## Texts -/

namespace Digits

variable {b : ℕ} {ds : Digits} {o : Options}

theorem Bounded.withRadix_eq (hb : 2 ≤ b) (h : ds.Bounded b) : ds.withRadix = ds := by
  refine if_neg ?_
  rw [h.radix]
  omega

theorem exists_render (hb : 2 ≤ b) (hb' : b ≤ 36) (h : ds.Bounded b) (hs : o.style ∈ Style.named)
    (hroom : Layout.roundedLength o.style o.precision ds ≤ Layout.maxLength)
    (hecma : o.style = .ecma → b = 10) (negative : Bool) :
    ∃ t, ds.render negative o = .ok t := by
  have hempty : ¬ ds.digits.isEmpty := by simpa using h.below.ne_nil
  unfold Digits.render
  rw [if_neg hempty, h.withRadix_eq hb]
  dsimp only
  rcases Layout.resolve_cases hs ds.exponent with ⟨hstyle, hres⟩ | ⟨-, hres | hres⟩
  · rw [hres, h.radix, hecma hstyle]
    dsimp only
    rw [if_neg (by decide)]
    split_ifs
    · exact ⟨_, rfl⟩
    · rw [Layout.demandChars_eq_ok h.below hb']
      exact ⟨_, rfl⟩
  · rw [Layout.roundedLength_of_fixed hres] at hroom
    obtain ⟨cs, hcs⟩ := Layout.exists_fixed hb hb' h hroom
    rw [hres, hcs]
    exact ⟨_, rfl⟩
  · rw [Layout.roundedLength_of_scientific hres] at hroom
    obtain ⟨cs, hcs⟩ := Layout.exists_scientific hb hb' h (p := o.precision) fun hzero => by
      rwa [hzero, if_neg (by decide)] at hroom
    rw [hres, hcs]
    exact ⟨_, rfl⟩

theorem render_ecma_eq_error (hb : 2 ≤ b) (h : ds.Bounded b) (hs : o.style = .ecma) (hten : b ≠ 10)
    (negative : Bool) : ds.render negative o = .error (.returned (.decimalOnly b)) := by
  have hempty : ¬ ds.digits.isEmpty := by simpa using h.below.ne_nil
  have hradix : (b : ℤ) ≠ 10 := by exact_mod_cast hten
  unfold Digits.render
  rw [if_neg hempty, h.withRadix_eq hb, hs]
  dsimp only [Layout.resolve]
  rw [h.radix, if_pos hradix]
  rfl

/-- A list that is too long is a crash. -/
theorem render_eq_error_of_lt (hb : 2 ≤ b) (h : ds.Bounded b) (hs : o.style ∈ Style.named)
    (hp : -1 ≤ o.precision)
    (hlong : Layout.maxLength < Layout.roundedLength o.style o.precision ds) (negative : Bool) :
    ∃ n, ds.render negative o = .error (.raised (.listTooLong n)) := by
  have hempty : ¬ ds.digits.isEmpty := by simpa using h.below.ne_nil
  have hle := Layout.roundedLength_le h o.style hp
  have hnonneg : 0 ≤ o.precision := by
    unfold Layout.maxLength at hlong
    omega
  unfold Digits.render
  rw [if_neg hempty, h.withRadix_eq hb]
  dsimp only
  rcases Layout.resolve_cases hs ds.exponent with ⟨-, hres⟩ | ⟨-, hres | hres⟩
  · rw [Layout.roundedLength, hres] at hlong
    exact absurd hlong (show ¬(Layout.maxLength : ℤ) < 0 by decide)
  · rw [Layout.roundedLength_of_fixed hres] at hlong
    rcases Layout.fixed_eq_error hnonneg fun hroom => hlong.not_ge hroom.places with ⟨n, hn⟩
    rw [hres, hn]
    exact ⟨n, rfl⟩
  · rw [Layout.roundedLength_of_scientific hres] at hlong
    split_ifs at hlong with hzero
    · exact absurd hlong (by decide)
    · rcases Layout.scientific_eq_error hnonneg (by simpa using hzero) hlong with ⟨n, hn⟩
      rw [hres, hn]
      exact ⟨n, rfl⟩

end Digits

namespace Decomposition

variable {x : Binary64}

theorem generate_of_isZero (hz : x.isZero) (b : Radix) :
    Digits.generate (ofBinary64 x) b.val = .ok ⟨[0], 0, b.val⟩ := by
  rw [ofBinary64_of_isZero hz]
  unfold Digits.generate
  rw [ofInt?_radix]
  rfl

theorem generate_bounded (hx : x.isFinite) (b : Radix) :
    ∃ ds, Digits.generate (ofBinary64 x) b.val = .ok ds ∧ ds.Bounded b.val := by
  cases hz : x.isZero
  · obtain ⟨ds, hds, hwritten, -⟩ := generate_written hx hz b
    exact ⟨ds, hds, hwritten.radix, hwritten.below, hwritten.lower, hwritten.upper,
      Digits.length_generate hds⟩
  · have hds := generate_of_isZero hz b
    have hbelow : Layout.DigitsBelow b.val [0] :=
      ⟨Scale.radix_pos b, by simp, by simpa using Scale.radix_pos b⟩
    exact ⟨_, hds, rfl, hbelow, (by decide : (-1074 : ℤ) < 0), (by decide : (0 : ℤ) ≤ 1025),
      Digits.length_generate hds⟩

theorem generate_of_no_radix {radix : ℤ} (h : Radix.ofInt? radix = none) (d : Decomposition) :
    Digits.generate d radix = .error (.returned (.radixOutOfRange radix)) := by
  unfold Digits.generate
  rw [h]
  rfl

/-- Digits are refused only in radixes that there are not, and of doubles that are not finite. -/
theorem generate_cases (x : Binary64) (radix : ℤ) :
    (∃ ds, Digits.generate (ofBinary64 x) radix = .ok ds) ∨
      Digits.generate (ofBinary64 x) radix = .error (.returned (.radixOutOfRange radix)) ∨
      Digits.generate (ofBinary64 x) radix = .error (.returned .notFinite) := by
  cases hradix : Radix.ofInt? radix with
  | none =>
    right; left
    exact generate_of_no_radix hradix _
  | some b =>
    have hb : radix = b.val := by
      unfold Radix.ofInt? at hradix
      split_ifs at hradix with hmem
      cases hradix
      change radix = radix.toNat
      omega
    rcases x.classes with hnan | ⟨hinf, -⟩ | ⟨hx, -⟩
    · right; right
      unfold Digits.generate
      rw [hradix, ofBinary64_of_isNaN hnan]
      rfl
    · right; right
      unfold Digits.generate
      rw [hradix, ofBinary64_of_rank_eq hinf]
      rfl
    · left
      obtain ⟨ds, hds, -⟩ := generate_bounded hx b
      rw [← hb] at hds
      exact ⟨ds, hds⟩

/-- With valid settings every double has a text. -/
theorem exists_render {s : Settings} (hs : s.flaw? = none) (x : Binary64) :
    ∃ t, (ofBinary64 x).render s.radix s.options = .ok t := by
  have hvalid := Settings.valid_of_flaw?_eq_none hs
  obtain ⟨b, hb⟩ := hvalid.radix
  rcases x.classes with hnan | ⟨hinf, -⟩ | ⟨hx, -⟩
  · exact ⟨_, render_of_isNaN hnan _ _⟩
  · exact ⟨_, render_of_rank_eq hinf _ _⟩
  · obtain ⟨ds, hds, hbounded⟩ := generate_bounded hx b
    rw [hb, render_of_isFinite hx _ hds]
    refine Digits.exists_render b.two_le b.le_max hbounded hvalid.style ?_ ?_ _
    · rcases hvalid.precision with ⟨hlow, hhigh⟩
      refine (Layout.roundedLength_le hbounded _ hlow).trans ?_
      unfold Settings.maxPrecision at hhigh
      unfold Layout.maxLength
      omega
    · intro hecma
      have hten := hvalid.ecma hecma
      omega

end Decomposition

end Numerals
