import Numerals.Proofs.Integer.Normalized

/-!
# Exact sums and differences

A sum of words leaves its low half in place and carries the rest; a difference of words borrows from
the next one. What is carried or borrowed is at most one, so that no word is lost: the words of a
sum denote the sum, and those of a difference denote the difference unless a borrow is left over,
which happens exactly if more is taken away than there is. Main statement: sums and differences of
integers are exact, and the larger magnitude is always chosen so that no borrow is left over.
-/

namespace Numerals

namespace Magnitude

variable {a b : Magnitude}

theorem toNat_trim (a : Magnitude) : toNat a.trim = toNat a := by
  induction a with
  | nil => rfl
  | cons d ds ih =>
    rw [trim, toNat_cons, ← ih]
    split
    · rename_i hnil
      rw [hnil]
      split
      · rename_i hd
        rw [hd]
        rfl
      · rfl
    · rename_i e es heq
      rw [heq, toNat_cons d]

theorem toNat_zeros_append (n : ℕ) (a : Magnitude) :
    toNat (List.replicate n 0 ++ a) = 2 ^ (32 * n) * toNat a := by
  induction n with
  | zero => simp
  | succ n ih =>
    rw [List.replicate_succ, List.cons_append, toNat_cons, ih, UInt32.toNat_zero]
    ring

/-- Words beyond the end are zero. -/
theorem toNat_head_tail (a : Magnitude) :
    toNat a = (a.headD 0).toNat + 2 ^ 32 * toNat a.tail := by
  cases a with
  | nil => rfl
  | cons d ds => exact toNat_cons d ds

/-! ## Sums -/

/-- The low word of a sum and what is carried make up the sum. -/
theorem toNat_low_high (s : UInt64) :
    s.toUInt32.toNat + 2 ^ 32 * (s >>> 32).toNat = s.toNat := by
  have hhigh : (s >>> 32).toNat = s.toNat / 2 ^ 32 := by
    simp [UInt64.toNat_shiftRight, Nat.shiftRight_eq_div_pow]
  rw [hhigh, UInt64.toNat_toUInt32]
  omega

theorem toNat_word_add {carry : UInt64} (hcarry : carry.toNat ≤ 1) (a : UInt32) :
    (a.toUInt64 + carry).toNat = a.toNat + carry.toNat := by
  have ha := a.toNat_lt
  rw [UInt64.toNat_add, UInt32.toNat_toUInt64]
  omega

/-- With a carry of at most one, two words have room in a sum. -/
theorem toNat_words_add {carry : UInt64} (hcarry : carry.toNat ≤ 1) (a b : UInt32) :
    (a.toUInt64 + carry + b.toUInt64).toNat = a.toNat + carry.toNat + b.toNat := by
  have ha := a.toNat_lt
  have hb := b.toNat_lt
  rw [UInt64.toNat_add, toNat_word_add hcarry, UInt32.toNat_toUInt64]
  omega

/-- The carry out of a sum of two words is again at most one. -/
theorem carry_le_one {s : UInt64} (hs : s.toNat < 2 * 2 ^ 32) : (s >>> 32).toNat ≤ 1 := by
  have hsplit := toNat_low_high s
  omega

theorem toNat_addCarry {carry : UInt64} (hcarry : carry.toNat ≤ 1) (a b : Magnitude) :
    toNat (addCarry carry a b) = toNat a + toNat b + carry.toNat := by
  fun_induction addCarry carry a b with
  | case1 carry =>
    rw [toNat_singleton, UInt64.toNat_toUInt32]
    simp only [toNat]
    omega
  | case2 carry a as s ih =>
    have ha := a.toNat_lt
    have hsum : s.toNat = a.toNat + carry.toNat := toNat_word_add hcarry a
    have hsplit := toNat_low_high s
    rw [toNat_cons, ih (carry_le_one (by omega)), toNat_cons]
    simp only [toNat]
    omega
  | case3 carry b bs s ih =>
    have hb := b.toNat_lt
    have hsum : s.toNat = b.toNat + carry.toNat := toNat_word_add hcarry b
    have hsplit := toNat_low_high s
    rw [toNat_cons, ih (carry_le_one (by omega)), toNat_cons]
    simp only [toNat]
    omega
  | case4 carry a as b bs s ih =>
    have ha := a.toNat_lt
    have hb := b.toNat_lt
    have hsum : s.toNat = a.toNat + carry.toNat + b.toNat := toNat_words_add hcarry a b
    have hsplit := toNat_low_high s
    rw [toNat_cons, ih (carry_le_one (by omega)), toNat_cons, toNat_cons]
    omega

theorem toNat_add (a b : Magnitude) : toNat (a.add b) = toNat a + toNat b := by
  rw [add, toNat_addCarry (by decide)]
  rfl

/-! ## Differences -/

/-- The difference of two words less a borrow, and what it borrows: a word that is equal to what is
taken from it borrows only if a borrow is already pending. -/
theorem sub_step (a b : UInt32) (borrow : Bool) :
    (a - b - if borrow then 1 else 0).toNat + b.toNat + borrow.toNat =
      a.toNat + 2 ^ 32 * (a < b || (a == b && borrow)).toNat := by
  have ha := a.toNat_lt
  have hb := b.toNat_lt
  have hless : (a < b) ↔ a.toNat < b.toNat := UInt32.lt_iff_toNat_lt
  have hsame : (a == b) = decide (a.toNat = b.toNat) := by
    rw [Bool.beq_eq_decide_eq, decide_eq_decide, UInt32.toNat_inj]
  cases borrow with
  | false =>
    by_cases h : a.toNat < b.toNat
    · simp [hless, h, UInt32.toNat_sub]
      omega
    · simp [hless, h, UInt32.toNat_sub]
      omega
  | true =>
    rcases Nat.lt_trichotomy a.toNat b.toNat with h | h | h
    · simp [hless, h, UInt32.toNat_sub]
      omega
    · simp [hless, hsame, h, UInt32.toNat_sub]
      omega
    · have hnot : ¬a.toNat < b.toNat := by omega
      have hne : a.toNat ≠ b.toNat := by omega
      simp [hless, hsame, hnot, hne, UInt32.toNat_sub]
      omega

theorem length_subBorrow (borrow : Bool) (a b : Magnitude) :
    (subBorrow borrow a b).1.length = a.length := by
  induction a generalizing borrow b with
  | nil => rfl
  | cons d ds ih =>
    rw [subBorrow]
    simp [ih]

/-- The words of a difference, with what was taken away, make up what there was and what is still
borrowed at the end. -/
theorem toNat_subBorrow (borrow : Bool) (h : b.length ≤ a.length) :
    toNat (subBorrow borrow a b).1 + toNat b + borrow.toNat =
      toNat a + 2 ^ (32 * a.length) * (subBorrow borrow a b).2.toNat := by
  induction a generalizing borrow b with
  | nil =>
    obtain rfl : b = [] := List.eq_nil_of_length_eq_zero (by simpa using h)
    simp [subBorrow, toNat]
  | cons d ds ih =>
    have hlen : b.tail.length ≤ ds.length := by
      rw [List.length_tail]
      exact Nat.sub_le_of_le_add h
    have hword := sub_step d (b.headD 0) borrow
    have hrest := ih (d < b.headD 0 || (d == b.headD 0 && borrow)) hlen
    have hpow : 2 ^ (32 * (d :: ds).length) = 2 ^ 32 * 2 ^ (32 * ds.length) := by
      rw [← pow_add, List.length_cons]
      ring_nf
    rw [subBorrow, toNat_cons, toNat_cons, toNat_head_tail b, hpow, Nat.mul_assoc]
    dsimp only
    omega

/-- A borrow is left over exactly if more is taken away than there is. -/
theorem borrows_iff (h : b.length ≤ a.length) :
    (subBorrow false a b).2 = true ↔ toNat a < toNat b := by
  have hvalue := toNat_subBorrow false h
  have hlt := toNat_lt (subBorrow false a b).1
  rw [length_subBorrow] at hlt
  cases hborrow : (subBorrow false a b).2 with
  | false =>
    simp only [hborrow, Bool.toNat_false] at hvalue
    simp only [Bool.false_eq_true, false_iff]
    omega
  | true =>
    simp only [hborrow, Bool.toNat_true, Bool.toNat_false] at hvalue
    simp only [true_iff]
    omega

/-- A trimmed magnitude can be taken from one that is not less. -/
theorem exists_sub (hb : Trimmed b) (h : toNat b ≤ toNat a) :
    ∃ ds, a.sub b = .ok ds ∧ toNat ds = toNat a - toNat b := by
  have hlen : b.length ≤ a.length := by
    by_contra hlong
    have hlt := toNat_lt_of_length_lt hb (Nat.lt_of_not_le hlong)
    omega
  have hvalue := toNat_subBorrow false hlen
  have hborrow : (subBorrow false a b).2 = false := by
    rw [← Bool.not_eq_true, borrows_iff hlen]
    omega
  refine ⟨(subBorrow false a b).1, ?_, ?_⟩
  · unfold sub
    split
    · rename_i ds heq
      rw [heq]
    · rename_i ds heq
      rw [heq] at hborrow
      cases hborrow
  · simp only [hborrow, Bool.toNat_false] at hvalue
    omega

end Magnitude

namespace Integer

variable {x y : Integer}

theorem toInt_ofWords (s : Sign) (a : Magnitude) : (ofWords s a).toInt = s.toInt * a.toNat := by
  rw [← a.toNat_trim]
  unfold ofWords
  split
  · rename_i hnil
    rw [hnil]
    simp [toInt, zero, Sign.toInt, Magnitude.toNat]
  · rename_i d ds heq
    rw [heq]
    rfl

theorem toInt_neg (x : Integer) : x.neg.toInt = -x.toInt := by
  unfold neg
  split
  · rename_i hs
    rw [toInt_of_zero hs, neg_zero]
  · cases hs : x.sign <;> simp [toInt, hs, Sign.neg, Sign.toInt]

/-- The difference of two magnitudes, with the sign `s`. -/
theorem exists_difference {a b : Magnitude} (hb : b.Trimmed) (h : b.toNat ≤ a.toNat) (s : Sign) :
    ∃ z, (a.sub b).map (ofWords s) = .ok z ∧ z.toInt = s.toInt * ((a.toNat : ℤ) - b.toNat) := by
  obtain ⟨ds, hsub, hvalue⟩ := Magnitude.exists_sub hb h
  refine ⟨ofWords s ds, by rw [hsub]; rfl, ?_⟩
  rw [toInt_ofWords, hvalue]
  push_cast [h]
  rfl

/-- Signs that differ and are not zero are opposite. -/
theorem sign_toInt_of_ne {s t : Sign} (hs : s ≠ .zero) (ht : t ≠ .zero) (hst : s ≠ t) :
    t.toInt = -s.toInt := by
  cases s <;> cases t <;> simp_all [Sign.toInt]

/-- The sum of integers in the unique form is found, and denotes the sum of what they denote. -/
theorem Normalized.exists_add (hx : x.Normalized) (hy : y.Normalized) :
    ∃ z, x.add y = .ok z ∧ z.toInt = x.toInt + y.toInt := by
  have hmag := Magnitude.compare_eq hx.trimmed hy.trimmed
  unfold add
  split
  · rename_i hxs
    exact ⟨y, rfl, by rw [toInt_of_zero hxs, zero_add]⟩
  · rename_i hxs
    split
    · rename_i hys
      exact ⟨x, rfl, by rw [toInt_of_zero hys, add_zero]⟩
    · rename_i hys
      split
      · -- with equal signs, the magnitudes are added
        rename_i hsame
        refine ⟨_, rfl, ?_⟩
        rw [toInt_ofWords, Magnitude.toNat_add, toInt, toInt, ← hsame]
        push_cast
        ring
      · -- otherwise the lesser one is taken from the greater one, which gives the sign
        rename_i hdiff
        have hopposite := sign_toInt_of_ne hxs hys hdiff
        rw [hmag]
        split
        · rename_i heq
          refine ⟨zero, rfl, ?_⟩
          rw [toInt_of_zero rfl, toInt, toInt, hopposite, compare_eq_iff_eq.mp heq]
          ring
        · rename_i hgt
          have hle := (compare_gt_iff_gt.mp hgt).le
          obtain ⟨z, hz, hvalue⟩ := exists_difference hy.trimmed hle x.sign
          refine ⟨z, hz, ?_⟩
          rw [hvalue, toInt, toInt, hopposite]
          ring
        · rename_i hlt
          have hle := (compare_lt_iff_lt.mp hlt).le
          obtain ⟨z, hz, hvalue⟩ := exists_difference hx.trimmed hle y.sign
          refine ⟨z, hz, ?_⟩
          rw [hvalue, toInt, toInt, hopposite]
          ring

theorem Normalized.exists_sub (hx : x.Normalized) (hy : y.Normalized) :
    ∃ z, x.sub y = .ok z ∧ z.toInt = x.toInt - y.toInt := by
  obtain ⟨z, hz, hvalue⟩ := hx.exists_add (normalized_neg hy)
  exact ⟨z, hz, by rw [hvalue, toInt_neg, sub_eq_add_neg]⟩

/-- Sums and differences of integers in the unique form are always found, they are in that form, and
they denote the sums and differences of what the operands denote. -/
theorem add_sub_exact (hx : x.Normalized) (hy : y.Normalized) :
    (∃ z, x.add y = .ok z ∧ z.Normalized ∧ z.toInt = x.toInt + y.toInt) ∧
    ∃ z, x.sub y = .ok z ∧ z.Normalized ∧ z.toInt = x.toInt - y.toInt := by
  obtain ⟨z, hadd, hsum⟩ := hx.exists_add hy
  obtain ⟨w, hsub, hdifference⟩ := hx.exists_sub hy
  exact ⟨⟨z, hadd, normalized_add hx hy hadd, hsum⟩,
    w, hsub, normalized_add hx (normalized_neg hy) hsub, hdifference⟩

/-- The middle words are equal, so that the borrow of the lowest word passes through them. -/
theorem add_sub_exact_borrow :
    Normalized ⟨.positive, [0, 7, 1]⟩ ∧ Normalized ⟨.negative, [1, 7]⟩ ∧
    (∃ z, add ⟨.positive, [0, 7, 1]⟩ ⟨.negative, [1, 7]⟩ = .ok z ∧ z.Normalized ∧
      z.toInt = toInt ⟨.positive, [0, 7, 1]⟩ + toInt ⟨.negative, [1, 7]⟩) ∧
    ∃ z, sub ⟨.positive, [0, 7, 1]⟩ ⟨.negative, [1, 7]⟩ = .ok z ∧ z.Normalized ∧
      z.toInt = toInt ⟨.positive, [0, 7, 1]⟩ - toInt ⟨.negative, [1, 7]⟩ := by
  have hx : Normalized ⟨.positive, [0, 7, 1]⟩ := by decide
  have hy : Normalized ⟨.negative, [1, 7]⟩ := by decide
  exact ⟨hx, hy, add_sub_exact hx hy⟩

end Integer

end Numerals
