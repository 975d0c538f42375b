import Numerals.Proofs.Integer.Numeral

/-!
# The grammar of numerals

A numeral is a sign or none, and at least one digit of the base. Reading takes the sign off and goes
through the bytes after it, so that it stops at the first one that is no digit. Main statement: the
numerals of a base are what is read in this base, as the integers that they denote; anything else is
refused, with the place of the first byte after the sign that is no digit, or with none if there is
nothing after the sign.
-/

namespace Numerals.Integer

open Text

variable {b : ℕ} {base : ℤ} {bytes good rest : List UInt8} {c : UInt8} {d : ℕ} {ds : List ℕ} {n : ℤ}

/-! ## Numerals -/

/-- The byte `c` is the digit with the value `d`: a figure, or from ten on a letter in either case. -/
inductive IsDigit (c : UInt8) : ℕ → Prop where
  | figure (k : ℕ) (hk : k < 10) (h : c.toNat = '0'.toNat + k) : IsDigit c k
  | small (k : ℕ) (hk : k < 26) (h : c.toNat = 'a'.toNat + k) : IsDigit c (10 + k)
  | capital (k : ℕ) (hk : k < 26) (h : c.toNat = 'A'.toNat + k) : IsDigit c (10 + k)

/-- The byte `c` is the digit of base `b` with the value `d`. -/
def IsDigitOf (b : ℕ) (c : UInt8) (d : ℕ) : Prop :=
  IsDigit c d ∧ d < b

/-- What may stand in front of digits, and the factor that it is. -/
inductive IsSign : List UInt8 → ℤ → Prop where
  | none : IsSign [] 1
  | plus : IsSign ['+'.toUInt8] 1
  | minus : IsSign ['-'.toUInt8] (-1)

/-- The bytes are a numeral of base `b` and denote a number. -/
inductive IsNumeral (b : ℕ) : List UInt8 → ℤ → Prop where
  | mk {sign digits : List UInt8} {factor : ℤ} {ds : List ℕ} (hsign : IsSign sign factor)
      (hne : digits ≠ []) (hdigits : List.Forall₂ (IsDigitOf b) digits ds) :
      IsNumeral b (sign ++ digits) (factor * Nat.ofDigits b ds.reverse)

/-- The bytes after the sign, if there is one. -/
def afterSign (bytes : List UInt8) : List UInt8 :=
  if bytes.head? = some '+'.toUInt8 ∨ bytes.head? = some '-'.toUInt8 then bytes.tail else bytes

/-! ## Digits -/

theorem digitValue?_eq_some_iff : digitValue? c = some d ↔ IsDigit c d := by
  have hzero : '0'.toNat = 48 := rfl
  have hsmall : 'a'.toNat = 97 := rfl
  have hcapital : 'A'.toNat = 65 := rfl
  constructor
  · intro h
    unfold digitValue? at h
    dsimp only at h
    split_ifs at h with hfigure hlower hupper
    · cases h
      exact .figure _ (by omega) (by omega)
    · cases h
      have hten : c.toNat - 87 = 10 + (c.toNat - 97) := by omega
      rw [hten]
      exact .small _ (by omega) (by omega)
    · cases h
      have hten : c.toNat - 55 = 10 + (c.toNat - 65) := by omega
      rw [hten]
      exact .capital _ (by omega) (by omega)
  · rintro (⟨_, hk, h⟩ | ⟨k, hk, h⟩ | ⟨k, hk, h⟩)
    · rw [digitValue?, if_pos (by omega)]
      congr 1
      omega
    · rw [digitValue?, if_neg (by omega), if_pos (by omega)]
      congr 1
      omega
    · rw [digitValue?, if_neg (by omega), if_neg (by omega), if_pos (by omega)]
      congr 1
      omega

theorem digitBelow?_eq_some_iff : digitBelow? b c = some d ↔ IsDigitOf b c d := by
  rw [digitBelow?, Option.filter_eq_some_iff, digitValue?_eq_some_iff, decide_eq_true_iff]
  rfl

theorem digitBelow?_eq_none_iff : digitBelow? b c = none ↔ ∀ d, ¬IsDigitOf b c d := by
  simp only [← digitBelow?_eq_some_iff]
  exact Option.eq_none_iff_forall_ne_some

theorem spells_iff : Spells b bytes ds ↔ List.Forall₂ (IsDigitOf b) bytes ds := by
  unfold Spells
  simp only [digitBelow?_eq_some_iff]

theorem Spells.exists_isDigitOf (h : Spells b bytes ds) : ∀ c ∈ bytes, ∃ d, IsDigitOf b c d := by
  induction h with
  | nil => simp
  | @cons c d cs ds hd _ ih =>
    intro c' hmem
    rcases List.mem_cons.mp hmem with rfl | hmem
    · exact ⟨d, digitBelow?_eq_some_iff.mp hd⟩
    · exact ih c' hmem

/-- No digit is a sign. -/
theorem IsDigit.ne_sign (h : IsDigit c d) : c ≠ 45 ∧ c ≠ 43 := by
  have hrange : 48 ≤ c.toNat := by
    rcases h with ⟨_, -, h⟩ | ⟨k, -, h⟩ | ⟨k, -, h⟩
    · exact h ▸ Nat.le_add_right 48 _
    · exact h ▸ (show 48 ≤ 97 + k by omega)
    · exact h ▸ (show 48 ≤ 65 + k by omega)
  constructor
  · rintro rfl
    exact absurd hrange (by decide)
  · rintro rfl
    exact absurd hrange (by decide)

/-! ## Signs -/

theorem splitSign_snd (bytes : List UInt8) : (splitSign bytes).2 = afterSign bytes := by
  rw [splitSign_eq]
  rfl

/-- A sign in front of digits is taken off, and only that. -/
theorem IsSign.exists_splitSign {sign digits : List UInt8} {factor : ℤ} (hsign : IsSign sign factor)
    (hne : digits ≠ []) (hdigits : Spells b digits ds) :
    ∃ minus, splitSign (sign ++ digits) = (minus, digits) ∧
      ∀ k : ℕ, signedInt minus k = factor * k := by
  cases hsign with
  | plus => exact ⟨false, rfl, fun k => (one_mul _).symm⟩
  | minus => exact ⟨true, rfl, fun k => (neg_one_mul _).symm⟩
  | none =>
    cases hdigits with
    | nil => exact absurd rfl hne
    | @cons c d cs ds hd _ =>
      obtain ⟨hminus, hplus⟩ := (digitBelow?_eq_some_iff.mp hd).1.ne_sign
      refine ⟨false, ?_, fun k => (one_mul _).symm⟩
      rw [List.nil_append, splitSign, if_neg hminus, if_neg hplus]

/-- Bytes are their sign and what comes after it. -/
theorem exists_isSign (bytes : List UInt8) :
    ∃ sign factor, IsSign sign factor ∧ bytes = sign ++ afterSign bytes := by
  cases bytes with
  | nil => exact ⟨[], 1, .none, rfl⟩
  | cons c cs =>
    by_cases hplus : c = 43
    · subst hplus
      exact ⟨_, _, .plus, rfl⟩
    · by_cases hminus : c = 45
      · subst hminus
        exact ⟨_, _, .minus, rfl⟩
      · refine ⟨[], 1, .none, ?_⟩
        have hsign : ¬((c :: cs).head? = some '+'.toUInt8 ∨ (c :: cs).head? = some '-'.toUInt8) := by
          rintro (h | h)
          · exact hplus (Option.some.inj h)
          · exact hminus (Option.some.inj h)
        rw [List.nil_append, afterSign, if_neg hsign]

theorem isNumeral_of_spells (h : Spells b (afterSign bytes) ds) (hne : afterSign bytes ≠ []) :
    ∃ n, IsNumeral b bytes n := by
  obtain ⟨sign, factor, hsign, hbytes⟩ := exists_isSign bytes
  rw [hbytes]
  exact ⟨_, .mk hsign hne (spells_iff.mp h)⟩

/-! ## Bytes that are no digits -/

/-- Bytes are digits throughout, or up to the first one that is none. -/
theorem spells_or_flaw (b : ℕ) (bytes : List UInt8) :
    (∃ ds, Spells b bytes ds) ∨
      ∃ good ds c rest, bytes = good ++ c :: rest ∧ Spells b good ds ∧ digitBelow? b c = none := by
  induction bytes with
  | nil => exact .inl ⟨[], .nil⟩
  | cons c cs ih =>
    cases hc : digitBelow? b c with
    | none => exact .inr ⟨[], [], c, cs, rfl, .nil, hc⟩
    | some d =>
      rcases ih with ⟨ds, hds⟩ | ⟨good, ds, c', rest, rfl, hds, hflaw⟩
      · exact .inl ⟨d :: ds, .cons hc hds⟩
      · exact .inr ⟨c :: good, d :: ds, c', rest, rfl, .cons hc hds, hflaw⟩

/-- Digits are read up to the first byte that is none, which is refused with its index. -/
theorem Spells.readDigits_flaw {x : Integer} (h : Spells b good ds) (hx : x.Normalized)
    (hc : digitBelow? b c = none) (i : ℕ) (rest : List UInt8) :
    readDigits b i x (good ++ c :: rest) = Result.refuse (.invalidDigit (i + good.length) c) := by
  induction h generalizing x i with
  | nil =>
    rw [List.nil_append, readDigits, hc]
    rfl
  | @cons c' d cs ds hd _ ih =>
    obtain ⟨z, hadd, -⟩ :=
      (normalized_mulWord x b.toUInt32).exists_add (normalized_ofInt64 (Int64.ofNat d))
    have hz := normalized_add (normalized_mulWord x _) (normalized_ofInt64 _) hadd
    rw [List.cons_append, readDigits, hd]
    dsimp only
    rw [hadd]
    refine (ih hz (i + 1)).trans ?_
    rw [List.length_cons, Nat.add_right_comm, Nat.add_assoc]

theorem readBytes_empty (hbase : isBase base = true) (h : afterSign bytes = []) :
    readBytes bytes base = Result.refuse .emptyNumber := by
  have hsplit : splitSign bytes = ((splitSign bytes).1, []) := by
    rw [← h, ← splitSign_snd]
  rw [readBytes, if_pos hbase, hsplit]

theorem Spells.readBytes_flaw (h : Spells base.toNat good ds) (hbase : isBase base = true)
    (hbytes : afterSign bytes = good ++ c :: rest) (hc : digitBelow? base.toNat c = none) :
    readBytes bytes base = Result.refuse (.invalidDigit good.length c) := by
  obtain ⟨e, es, hes⟩ := List.exists_cons_of_ne_nil (show good ++ c :: rest ≠ [] by simp)
  have hsplit : splitSign bytes = ((splitSign bytes).1, e :: es) := by
    rw [← hes, ← hbytes, ← splitSign_snd]
  have hread := h.readDigits_flaw normalized_zero hc 0 rest
  rw [hes, Nat.zero_add] at hread
  rw [readBytes, if_pos hbase, hsplit]
  dsimp only
  rw [hread]
  rfl

/-! ## Reading -/

theorem IsNumeral.exists_readBytes (h : IsNumeral base.toNat bytes n) (hbase : isBase base = true) :
    ∃ x, readBytes bytes base = .ok x ∧ x.toInt = n := by
  obtain ⟨hsign, hne, hdigits⟩ := h
  have hspells := spells_iff.mpr hdigits
  obtain ⟨minus, hsplit, hfactor⟩ := hsign.exists_splitSign hne hspells
  obtain ⟨x, hread, hx⟩ := hspells.exists_readBytes hbase hsplit hne
  refine ⟨x, hread, ?_⟩
  rw [hx, hfactor, ← wholeNumber_reverse, List.reverse_reverse]

/-- What is no numeral is refused as an argument, with the place of the first byte after the sign
that is no digit. -/
theorem exists_refused (hbase : isBase base = true) (h : ¬∃ n, IsNumeral base.toNat bytes n) :
    ∃ f : Fault, readBytes bytes base = Result.refuse f ∧ f.category = .invalidArgument ∧
      (afterSign bytes = [] → f.index? = none) ∧
      (afterSign bytes ≠ [] → ∃ good c rest, afterSign bytes = good ++ c :: rest ∧
        (∀ g ∈ good, ∃ d, IsDigitOf base.toNat g d) ∧ (∀ d, ¬IsDigitOf base.toNat c d) ∧
        f.index? = some good.length) := by
  by_cases hempty : afterSign bytes = []
  · exact ⟨_, readBytes_empty hbase hempty, rfl, fun _ => rfl, fun hne => absurd hempty hne⟩
  · rcases spells_or_flaw base.toNat (afterSign bytes) with
      ⟨ds, hds⟩ | ⟨good, ds, c, rest, hbytes, hds, hc⟩
    · exact absurd (isNumeral_of_spells hds hempty) h
    · refine ⟨_, hds.readBytes_flaw hbase hbytes hc, rfl, fun hnil => absurd hnil hempty, ?_⟩
      intro _
      exact ⟨good, c, rest, hbytes, hds.exists_isDigitOf, digitBelow?_eq_none_iff.mp hc, rfl⟩

/-- Reading takes exactly the numerals of the base. A numeral is read as the integer that it denotes.
Anything else is refused as an argument; the index is that of the first byte after the sign which is
no digit of the base, and there is none if nothing comes after the sign. -/
theorem readBytes_grammar (hlow : 2 ≤ base) (hhigh : base ≤ 36) (bytes : List UInt8) :
    ((∃ x, readBytes bytes base = .ok x) ↔ ∃ n, IsNumeral base.toNat bytes n) ∧
    (∀ x n, readBytes bytes base = .ok x → IsNumeral base.toNat bytes n →
      x.Normalized ∧ x.toInt = n) ∧
    ((¬∃ n, IsNumeral base.toNat bytes n) →
      ∃ f : Fault, readBytes bytes base = Result.refuse f ∧ f.category = .invalidArgument ∧
        (afterSign bytes = [] → f.index? = none) ∧
        (afterSign bytes ≠ [] → ∃ good c rest, afterSign bytes = good ++ c :: rest ∧
          (∀ g ∈ good, ∃ d, IsDigitOf base.toNat g d) ∧ (∀ d, ¬IsDigitOf base.toNat c d) ∧
          f.index? = some good.length)) := by
  have hbase : isBase base = true := isBase_iff.mpr ⟨hlow, hhigh⟩
  refine ⟨⟨?_, ?_⟩, ?_, exists_refused hbase⟩
  · rintro ⟨x, hx⟩
    by_contra hnone
    obtain ⟨f, hf, -⟩ := exists_refused hbase hnone
    cases hx.symm.trans hf
  · rintro ⟨n, hn⟩
    obtain ⟨x, hx, -⟩ := hn.exists_readBytes hbase
    exact ⟨x, hx⟩
  · intro x n hx hn
    obtain ⟨y, hy, hvalue⟩ := hn.exists_readBytes hbase
    obtain rfl : x = y := Except.ok.inj (hx.symm.trans hy)
    exact ⟨normalized_readBytes hx, hvalue⟩

/-- In base 16: the numeral `+7F`, and `-7G`, of which the second byte after the sign is a letter
beyond the digits of the base. -/
theorem readBytes_grammar_sixteen :
    IsNumeral 16 [43, 55, 70] 127 ∧ (∃ x, readBytes [43, 55, 70] 16 = .ok x ∧ x.toInt = 127) ∧
    (¬∃ n, IsNumeral 16 [45, 55, 71] n) ∧
    ∃ f : Fault, readBytes [45, 55, 71] 16 = Result.refuse f ∧ f.category = .invalidArgument ∧
      f.index? = some 1 := by
  have hnumeral : IsNumeral 16 [43, 55, 70] 127 := by
    have hdigits : List.Forall₂ (IsDigitOf 16) [55, 70] [7, 10 + 5] :=
      .cons ⟨.figure 7 (by decide) rfl, by decide⟩
        (.cons ⟨.capital 5 (by decide) rfl, by decide⟩ .nil)
    exact .mk .plus (by simp) hdigits
  have hflaw : readBytes [45, 55, 71] 16 = Result.refuse (.invalidDigit 1 71) := by decide
  obtain ⟨htakes, hvalue, -⟩ :=
    readBytes_grammar (show (2 : ℤ) ≤ 16 by decide) (by decide) [43, 55, 70]
  obtain ⟨htakes', -, hrefused⟩ :=
    readBytes_grammar (show (2 : ℤ) ≤ 16 by decide) (by decide) [45, 55, 71]
  have hnone : ¬∃ n, IsNumeral 16 [45, 55, 71] n := by
    intro h
    obtain ⟨x, hx⟩ := htakes'.mpr h
    cases hx.symm.trans hflaw
  obtain ⟨x, hx⟩ := htakes.mpr ⟨127, hnumeral⟩
  obtain ⟨f, hf, hcategory, -⟩ := hrefused hnone
  refine ⟨hnumeral, ⟨x, hx, (hvalue x 127 hx hnumeral).2⟩, hnone, f, hf, hcategory, ?_⟩
  cases hf.symm.trans hflaw
  rfl

end Numerals.Integer
