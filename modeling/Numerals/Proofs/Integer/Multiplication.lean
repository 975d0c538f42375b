import Numerals.Proofs.Integer.Addition
import Mathlib.Tactic.Linarith

/-!
# Exact products

A product of magnitudes is the sum of rows, one for each word of the first factor, and a row is a
chain of products of words in which what does not fit a word is carried on. Three things could go
wrong: the product of two words is put together from products of their halves in words that wrap
around; the carry is a word too; and at the end of a row it replaces a word of the sum instead of
being added to it. Main statement: none of them does (`RowsFit`), so that products are exact.
-/

namespace Numerals

namespace Magnitude

variable {bs low : Magnitude}

/-! ## Products of words -/

/-- A sum of words that wraps around is less than its first summand, and only then. -/
theorem toNat_add_wrap (u v : UInt32) :
    (u + v).toNat + 2 ^ 32 * (if u + v < u then 1 else 0 : UInt32).toNat = u.toNat + v.toNat := by
  have hu := u.toNat_lt
  have hv := v.toNat_lt
  have hless : u + v < u ↔ (u + v).toNat < u.toNat := UInt32.lt_iff_toNat_lt
  have hsum : (u + v).toNat = (u.toNat + v.toNat) % 2 ^ 32 := UInt32.toNat_add u v
  split
  · rename_i h
    have h' := hless.mp h
    rw [UInt32.toNat_one]
    omega
  · rename_i h
    have h' := mt hless.mpr h
    rw [UInt32.toNat_zero]
    omega

theorem toNat_low_half (u : UInt32) : (u &&& 0xFFFF).toNat = u.toNat % 2 ^ 16 := by
  rw [UInt32.toNat_and]
  exact Nat.and_two_pow_sub_one_eq_mod u.toNat 16

theorem toNat_high_half (u : UInt32) : (u >>> 16).toNat = u.toNat / 2 ^ 16 := by
  rw [UInt32.toNat_shiftRight, Nat.shiftRight_eq_div_pow]
  rfl

/-- A word shifted up by half its length, and what is shifted out of it. -/
theorem toNat_shift_half (u : UInt32) :
    (u <<< 16).toNat + 2 ^ 32 * (u >>> 16).toNat = 2 ^ 16 * u.toNat := by
  have hu := u.toNat_lt
  have hup : (u <<< 16).toNat = u.toNat * 2 ^ 16 % 2 ^ 32 := by
    rw [UInt32.toNat_shiftLeft, Nat.shiftLeft_eq]
    rfl
  rw [hup, toNat_high_half]
  omega

/-- The product of two halves fits a word. -/
theorem toNat_mul_halves {u v : UInt32} (hu : u.toNat < 2 ^ 16) (hv : v.toNat < 2 ^ 16) :
    (u * v).toNat = u.toNat * v.toNat := by
  rw [UInt32.toNat_mul]
  apply Nat.mod_eq_of_lt
  calc u.toNat * v.toNat < 2 ^ 16 * 2 ^ 16 := Nat.mul_lt_mul'' hu hv
    _ = 2 ^ 32 := by norm_num

/-- The high and the low word make up the product of two words. -/
theorem toNat_mulWord (a b : UInt32) :
    2 ^ 32 * (mulWord a b).1.toNat + (mulWord a b).2.toNat = a.toNat * b.toNat := by
  have ha := a.toNat_lt
  have hb := b.toNat_lt
  have hproduct : a.toNat * b.toNat < 2 ^ 32 * 2 ^ 32 := Nat.mul_lt_mul'' ha hb
  have hal := toNat_low_half a
  have hah := toNat_high_half a
  have hbl := toNat_low_half b
  have hbh := toNat_high_half b
  unfold mulWord
  dsimp only
  generalize a &&& 0xFFFF = al at hal ⊢
  generalize a >>> 16 = ah at hah ⊢
  generalize b &&& 0xFFFF = bl at hbl ⊢
  generalize b >>> 16 = bh at hbh ⊢
  -- the product in terms of the products of the halves, which fit words
  have hparts : a.toNat * b.toNat =
      (al * bl).toNat + 2 ^ 16 * (al * bh).toNat + 2 ^ 16 * (ah * bl).toNat +
        2 ^ 32 * (ah * bh).toNat := by
    have ha' : a.toNat = al.toNat + 2 ^ 16 * ah.toNat := by omega
    have hb' : b.toNat = bl.toNat + 2 ^ 16 * bh.toNat := by omega
    rw [toNat_mul_halves (by omega) (by omega), toNat_mul_halves (by omega) (by omega),
      toNat_mul_halves (by omega) (by omega), toNat_mul_halves (by omega) (by omega), ha', hb']
    ring
  rw [hparts] at hproduct ⊢
  generalize al * bl = ll at hproduct ⊢
  generalize al * bh = lh at hproduct ⊢
  generalize ah * bl = hl at hproduct ⊢
  generalize ah * bh = hh at hproduct ⊢
  -- the middle products are added to the lowest one in turn, and either sum may wrap around
  have hfirst := toNat_add_wrap ll (lh <<< 16)
  have hsecond := toNat_add_wrap (ll + lh <<< 16) (hl <<< 16)
  have hlh := toNat_shift_half lh
  have hhl := toNat_shift_half hl
  generalize (if ll + lh <<< 16 < ll then 1 else 0 : UInt32) = c₁ at hfirst ⊢
  generalize (if ll + lh <<< 16 + hl <<< 16 < ll + lh <<< 16 then 1 else 0 : UInt32) = c₂
    at hsecond ⊢
  have hhigh : (hh + lh >>> 16 + hl >>> 16 + (c₁ + c₂)).toNat =
      hh.toNat + (lh >>> 16).toNat + (hl >>> 16).toNat + (c₁.toNat + c₂.toNat) := by
    simp only [UInt32.toNat_add hh, UInt32.toNat_add (hh + _), UInt32.toNat_add (hh + _ + _),
      UInt32.toNat_add c₁]
    omega
  rw [hhigh]
  omega

/-! ## Rows -/

/-- The sum at one place of a row: the word that is there, the low word of the product, and the
carry. -/
def rowSum (a carry b o : UInt32) : UInt64 :=
  o.toUInt64 + (mulWord a b).2.toUInt64 + carry.toUInt64

theorem toNat_rowSum (a carry b o : UInt32) :
    (rowSum a carry b o).toNat = o.toNat + (mulWord a b).2.toNat + carry.toNat := by
  have ho := o.toNat_lt
  have hlow := (mulWord a b).2.toNat_lt
  have hcarry := carry.toNat_lt
  unfold rowSum
  simp only [UInt64.toNat_add, UInt32.toNat_toUInt64]
  omega

/-- A product of words leaves room for two further words. -/
theorem product_add_lt (a b o carry : UInt32) :
    a.toNat * b.toNat + o.toNat + carry.toNat < 2 ^ 32 * 2 ^ 32 := by
  have ha := a.toNat_lt
  have hb := b.toNat_lt
  have ho := o.toNat_lt
  have hcarry := carry.toNat_lt
  have hproduct : a.toNat * b.toNat ≤ (2 ^ 32 - 1) * (2 ^ 32 - 1) :=
    Nat.mul_le_mul (by omega) (by omega)
  omega

/-- The carry out of a place of a row fits a word. -/
theorem rowCarry_lt (a carry b o : UInt32) :
    (mulWord a b).1.toNat + (rowSum a carry b o >>> 32).toNat < 2 ^ 32 := by
  have hroom := product_add_lt a b o carry
  have hproduct := toNat_mulWord a b
  have hsum := toNat_rowSum a carry b o
  have hsplit := toNat_low_high (rowSum a carry b o)
  omega

/-- A place of a row is exact. -/
theorem row_step (a carry b o : UInt32) :
    (rowSum a carry b o).toUInt32.toNat +
        2 ^ 32 * ((mulWord a b).1 + (rowSum a carry b o >>> 32).toUInt32).toNat =
      o.toNat + a.toNat * b.toNat + carry.toNat := by
  have hcarry := rowCarry_lt a carry b o
  have hproduct := toNat_mulWord a b
  have hsum := toNat_rowSum a carry b o
  have hsplit := toNat_low_high (rowSum a carry b o)
  rw [UInt32.toNat_add, UInt64.toNat_toUInt32 (_ >>> _)]
  omega

/-- Along the row of `a` and `bs`, which is added to `out`, every carry fits a word, and the word
that the last one replaces is zero. -/
inductive RowFits (a : UInt32) : UInt32 → Magnitude → Magnitude → Prop where
  | last (carry : UInt32) (os : Magnitude) : RowFits a carry [] (0 :: os)
  | place {carry b o : UInt32} {bs os : Magnitude}
      (hcarry : (mulWord a b).1.toNat + (rowSum a carry b o >>> 32).toNat < 2 ^ 32)
      (hrest : RowFits a ((mulWord a b).1 + (rowSum a carry b o >>> 32).toUInt32) bs os) :
      RowFits a carry (b :: bs) (o :: os)

/-- Along the rows of `as` and `bs`, which are added to `out` one after the other, all carries
fit. -/
inductive RowsFit (bs : Magnitude) : Magnitude → Magnitude → Prop where
  | done (out : Magnitude) : RowsFit bs [] out
  | skip {as os : Magnitude} (o : UInt32) (hrest : RowsFit bs as os) :
      RowsFit bs (0 :: as) (o :: os)
  | row {a o : UInt32} {as out os : Magnitude} (ha : a ≠ 0) (hrow : RowFits a 0 bs out)
      (hout : addRow a 0 bs out = o :: os) (hrest : RowsFit bs as os) : RowsFit bs (a :: as) out

theorem rowFits (a carry : UInt32) (hlen : low.length = bs.length) (high : Magnitude) :
    RowFits a carry bs (low ++ 0 :: high) := by
  induction bs generalizing carry low with
  | nil =>
    obtain rfl := List.eq_nil_of_length_eq_zero hlen
    exact .last carry high
  | cons b bs ih =>
    obtain ⟨o, low, rfl⟩ := List.exists_cons_of_length_eq_add_one hlen
    exact .place (rowCarry_lt a carry b o) (ih _ (by simpa using hlen))

/-- A row that ends in a zero adds its product exactly, and leaves the words above alone. -/
theorem exists_addRow (a carry : UInt32) (hlen : low.length = bs.length) (high : Magnitude) :
    ∃ row, addRow a carry bs (low ++ 0 :: high) = row ++ high ∧ row.length = bs.length + 1 ∧
      toNat row = toNat low + a.toNat * toNat bs + carry.toNat := by
  induction bs generalizing carry low with
  | nil =>
    obtain rfl := List.eq_nil_of_length_eq_zero hlen
    exact ⟨[carry], rfl, rfl, by simp [toNat]⟩
  | cons b bs ih =>
    obtain ⟨o, low, rfl⟩ := List.exists_cons_of_length_eq_add_one hlen
    obtain ⟨row, hrow, hlength, hvalue⟩ :=
      ih ((mulWord a b).1 + (rowSum a carry b o >>> 32).toUInt32) (by simpa using hlen)
    refine ⟨(rowSum a carry b o).toUInt32 :: row, ?_, by simp [hlength], ?_⟩
    · rw [List.cons_append, List.cons_append, ← hrow]
      rfl
    · have hstep := row_step a carry b o
      rw [toNat_cons, hvalue, toNat_cons, toNat_cons]
      linarith

/-! ## Sums of rows -/

theorem toNat_zeros (n : ℕ) : toNat (List.replicate n 0) = 0 := by
  have hzeros := toNat_zeros_append n []
  rwa [List.append_nil] at hzeros

/-- What one word of the first factor does: it adds its row, of which the lowest word is final. -/
theorem exists_row (a : UInt32) (hlen : low.length = bs.length) (high : Magnitude) :
    ∃ o row, (if a = 0 then low ++ 0 :: high else addRow a 0 bs (low ++ 0 :: high)) =
        o :: (row ++ high) ∧ row.length = bs.length ∧
      toNat (o :: row) = toNat low + a.toNat * toNat bs := by
  obtain ⟨row, hrow, hlength, hvalue⟩ :
      ∃ row, (if a = 0 then low ++ 0 :: high else addRow a 0 bs (low ++ 0 :: high)) = row ++ high ∧
        row.length = bs.length + 1 ∧ toNat row = toNat low + a.toNat * toNat bs := by
    split
    · rename_i ha
      refine ⟨low ++ [0], by simp, by simp [hlen], ?_⟩
      rw [toNat_append, toNat_singleton, ha]
      simp
    · exact exists_addRow a 0 hlen high
  obtain ⟨o, row, rfl⟩ := List.exists_cons_of_length_eq_add_one hlength
  exact ⟨o, row, hrow, by simpa using hlength, hvalue⟩

/-- While rows are added, the words above the current row are zero. -/
theorem rowsFit (as : Magnitude) (hlen : low.length = bs.length) :
    RowsFit bs as (low ++ List.replicate as.length 0) := by
  induction as generalizing low with
  | nil => exact .done _
  | cons a as ih =>
    obtain ⟨o, row, hrow, hlength, -⟩ := exists_row a hlen (List.replicate as.length 0)
    rw [List.length_cons, List.replicate_succ]
    by_cases ha : a = 0
    · rw [if_pos ha] at hrow
      rw [ha, hrow]
      exact .skip o (ih hlength)
    · rw [if_neg ha] at hrow
      exact .row ha (rowFits a 0 hlen _) hrow (ih hlength)

theorem toNat_addRows (as : Magnitude) (hlen : low.length = bs.length) :
    toNat (addRows bs as (low ++ List.replicate as.length 0)) =
      toNat low + toNat as * toNat bs := by
  induction as generalizing low with
  | nil => simp [addRows, toNat]
  | cons a as ih =>
    obtain ⟨o, row, hrow, hlength, hvalue⟩ := exists_row a hlen (List.replicate as.length 0)
    rw [toNat_cons] at hvalue
    rw [List.length_cons, List.replicate_succ, addRows, hrow]
    dsimp only
    rw [toNat_cons, ih hlength, toNat_cons]
    linarith

/-- The places for a product: those of the first row, and one more for each row. -/
theorem replicate_places (a b : Magnitude) :
    List.replicate (a.length + b.length) (0 : UInt32) =
      List.replicate b.length 0 ++ List.replicate a.length 0 := by
  rw [List.replicate_append_replicate, Nat.add_comm]

theorem toNat_mul (a b : Magnitude) : toNat (a.mul b) = toNat a * toNat b := by
  rw [mul, replicate_places, toNat_addRows a List.length_replicate, toNat_zeros, Nat.zero_add]

theorem rowsFit_mul (a b : Magnitude) :
    RowsFit b a (List.replicate (a.length + b.length) 0) := by
  rw [replicate_places]
  exact rowsFit a List.length_replicate

end Magnitude

namespace Integer

theorem sign_toInt_mul (s t : Sign) : (s.mul t).toInt = s.toInt * t.toInt := by
  cases s <;> cases t <;> rfl

theorem toInt_mul (x y : Integer) : (x.mul y).toInt = x.toInt * y.toInt := by
  unfold mul
  split
  · rename_i h
    rw [Bool.or_eq_true, decide_eq_true_iff, decide_eq_true_iff] at h
    rcases h with hx | hy
    · rw [toInt_of_zero rfl, toInt_of_zero hx, zero_mul]
    · rw [toInt_of_zero rfl, toInt_of_zero hy, mul_zero]
  · rw [toInt_ofWords, sign_toInt_mul, Magnitude.toNat_mul, toInt, toInt]
    push_cast
    ring

theorem toInt_mulWord (x : Integer) (m : UInt32) : (x.mulWord m).toInt = x.toInt * m.toNat := by
  unfold mulWord
  split
  · rename_i h
    rw [Bool.or_eq_true, decide_eq_true_iff, decide_eq_true_iff] at h
    rcases h with hx | rfl
    · rw [toInt_of_zero rfl, toInt_of_zero hx, zero_mul]
    · rw [toInt_of_zero rfl, UInt32.toNat_zero, Nat.cast_zero, mul_zero]
  · rw [toInt_ofWords, Magnitude.toNat_mul, Magnitude.toNat_singleton, toInt]
    push_cast
    ring

/-- Products of integers, and of an integer and a word, denote the products of what the factors
denote. The product of two words is exact, and while rows are added, all carries fit and replace
nothing but zeros. -/
theorem mul_exact (x y : Integer) (m : UInt32) :
    (x.mul y).toInt = x.toInt * y.toInt ∧
    (x.mulWord m).toInt = x.toInt * m.toNat ∧
    (∀ a b : UInt32, 2 ^ 32 * (Magnitude.mulWord a b).1.toNat + (Magnitude.mulWord a b).2.toNat =
      a.toNat * b.toNat) ∧
    Magnitude.RowsFit y.mag x.mag (List.replicate (x.mag.length + y.mag.length) 0) ∧
    Magnitude.RowsFit [m] x.mag (List.replicate (x.mag.length + 1) 0) :=
  ⟨toInt_mul x y, toInt_mulWord x m, Magnitude.toNat_mulWord, Magnitude.rowsFit_mul x.mag y.mag,
    Magnitude.rowsFit_mul x.mag [m]⟩

end Integer

end Numerals
