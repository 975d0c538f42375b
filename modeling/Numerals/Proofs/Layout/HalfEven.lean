import Numerals.Layout.Rounding
import Numerals.Proofs.Digits.Positional
import Numerals.Proofs.Interval

/-!
# Rounding of digit lists, half to even

Increasing the last of some digits adds one to their number, and dropped digits round up if they are
more than one half. Main statement: the digits that `roundTo` keeps stand for the number of all
digits, in units of the last place kept, rounded half to even. This is so in bases below 256, where
no digit wraps when it is increased.
-/

namespace Numerals.Layout

variable {b : ℕ} {ds kept dropped : List UInt8}

/-- The whole number that digits stand for. -/
def number (b : ℕ) (ds : List UInt8) : ℕ :=
  wholeNumber b (ds.map UInt8.toNat)

theorem number_cons (d : UInt8) (ds : List UInt8) :
    number b (d :: ds) = d.toNat * b ^ ds.length + number b ds := by
  unfold number
  rw [List.map_cons, wholeNumber_cons, List.length_map]

theorem number_append (ds es : List UInt8) :
    number b (ds ++ es) = number b ds * b ^ es.length + number b es := by
  unfold number
  rw [List.map_append, wholeNumber_append, List.length_map]

theorem number_replicate (n : ℕ) : number b (List.replicate n 0) = 0 := by
  unfold number
  rw [List.map_replicate]
  exact wholeNumber_zeros n

theorem number_lt (h : ∀ d ∈ ds, d.toNat < b) : number b ds < b ^ ds.length := by
  have hnum := wholeNumber_lt (List.forall_mem_map.mpr h)
  rwa [List.length_map] at hnum

theorem number_eq_zero_iff (hb : 0 < b) : number b ds = 0 ↔ ∀ d ∈ ds, d = 0 := by
  induction ds with
  | nil => simp [number, wholeNumber]
  | cons d ds ih =>
    have hpow : b ^ ds.length ≠ 0 := (Nat.pow_pos hb).ne'
    rw [number_cons, Nat.add_eq_zero_iff, ih, Nat.mul_eq_zero, or_iff_left hpow,
      List.forall_mem_cons]
    exact and_congr_left fun _ => UInt8.toNat_inj (b := 0)

/-! ## The carry of an increased number -/

/-- A byte does not wrap unless it is the last one. -/
theorem toNat_next {d : UInt8} (h : d.toNat + 1 < 256) : (d + 1).toNat = d.toNat + 1 := by
  rw [UInt8.toNat_add]
  exact Nat.mod_eq_of_lt h

/-- Increasing the last place adds one; a carry out of the first place counts for a power of the
base. -/
def Increments (b : ℕ) (ds : List UInt8) : Prop :=
  (increment b ds).2.length = ds.length ∧
    (increment b ds).1.toNat * b ^ ds.length + number b (increment b ds).2 = number b ds + 1

theorem increments_of_lt (hb : b < 256) (h : ∀ d ∈ ds, d.toNat < b) : Increments b ds := by
  unfold Increments
  induction ds with
  | nil => exact ⟨rfl, rfl⟩
  | cons d ds ih =>
    rcases List.forall_mem_cons.mp h with ⟨hd, hds⟩
    rcases ih hds with ⟨hlen, hnum⟩
    have hnext : (d + 1).toNat = d.toNat + 1 := toNat_next (by omega)
    rw [increment]
    split
    · -- no carry reaches this digit
      rename_i out heq
      rw [heq] at hlen hnum
      constructor
      · rw [List.length_cons, List.length_cons, hlen]
      · simp only [Bool.toNat_false, Nat.zero_mul, Nat.zero_add] at hnum ⊢
        rw [number_cons, number_cons, hlen, hnum, Nat.add_assoc]
    · rename_i out heq
      rw [heq] at hlen hnum
      simp only [Bool.toNat_true, Nat.one_mul] at hnum
      by_cases hlt : ((d + 1).toNat : ℤ) < b
      · -- the digit takes the carry
        rw [if_pos hlt]
        constructor
        · rw [List.length_cons, List.length_cons, hlen]
        · simp only [Bool.toNat_false, Nat.zero_mul, Nat.zero_add]
          rw [number_cons, number_cons, hlen, hnext, Nat.add_one_mul]
          omega
      · -- the digit is the last one of the base and passes the carry on
        rw [if_neg hlt]
        have hfull : d.toNat + 1 = b := by omega
        have hpow : b ^ (ds.length + 1) = d.toNat * b ^ ds.length + b ^ ds.length := by
          rw [pow_succ', ← hfull, Nat.add_one_mul]
        constructor
        · rw [List.length_cons, List.length_cons, hlen]
        · simp only [Bool.toNat_true, Nat.one_mul, List.length_cons]
          rw [number_cons, number_cons, hlen, hpow, UInt8.toNat_zero, Nat.zero_mul]
          omega

/-! ## Which way digits are rounded -/

/-- In an odd base the digits of one half recur, and a list of digits lies above them if it is more
than one half. -/
theorem aboveHalf_iff (hodd : b % 2 = 1) (h : ∀ d ∈ ds, d.toNat < b) :
    aboveHalf ((b / 2 : ℕ) : ℤ) ds ↔ b ^ ds.length < 2 * number b ds := by
  induction ds with
  | nil => simp [aboveHalf, number, wholeNumber]
  | cons d ds ih =>
    rcases List.forall_mem_cons.mp h with ⟨hd, hds⟩
    have hrest := number_lt hds
    rw [aboveHalf, number_cons, List.length_cons, pow_succ']
    split_ifs with heq
    · have hmiddle : 2 * d.toNat + 1 = b := by omega
      rw [ih hds, ← hmiddle]
      constructor
      · intro hlt
        nlinarith
      · intro hlt
        nlinarith
    · rw [decide_eq_true_eq]
      constructor
      · intro hlt
        have hbig : b + 1 ≤ 2 * d.toNat := by omega
        nlinarith
      · intro hlt
        by_contra hle
        have hsmall : 2 * d.toNat + 2 ≤ b := by omega
        nlinarith

theorem any_ne_zero_iff (hb : 0 < b) : ds.any (· ≠ 0) ↔ 0 < number b ds := by
  rw [Nat.pos_iff_ne_zero, ne_eq, number_eq_zero_iff hb]
  simp

/-- In an even base the last digit decides whether a number is odd. -/
theorem getLast?_odd_iff (heven : b % 2 = 0) :
    ds.getLast?.any (· % 2 ≠ 0) ↔ number b ds % 2 = 1 := by
  unfold number
  rw [wholeNumber_mod (Nat.dvd_of_mod_eq_zero heven)]
  rcases List.eq_nil_or_concat' ds with rfl | ⟨init, d, rfl⟩
  · simp
  · have hmod : (d % 2).toNat = d.toNat % 2 := UInt8.toNat_mod d 2
    rw [List.getLast?_concat, List.map_append, List.map_singleton, List.getLastD_concat, ← hmod,
      Option.any_some, decide_eq_true_iff, ne_eq, ← UInt8.toNat_inj, UInt8.toNat_zero]
    omega

/-- Dropped digits round up if they are more than one half of the last place kept, or one half after
an odd number. -/
theorem roundsUp_iff (hb : 0 < b) (hne : dropped ≠ []) (h : ∀ d ∈ dropped, d.toNat < b) :
    roundsUp b kept dropped ↔ b ^ dropped.length < 2 * number b dropped ∨
      2 * number b dropped = b ^ dropped.length ∧ number b kept % 2 = 1 := by
  have hhalf : (b : ℤ).tdiv 2 = ((b / 2 : ℕ) : ℤ) := rfl
  have hmod : (b : ℤ).tmod 2 = ((b % 2 : ℕ) : ℤ) := rfl
  unfold roundsUp
  dsimp only
  rw [hhalf, hmod]
  split_ifs with hodd
  · have hodd' : b % 2 = 1 := by omega
    rw [aboveHalf_iff hodd' h]
    -- a power of an odd base is odd, so that there is no tie
    have hpow : b ^ dropped.length % 2 = 1 := by simp [Nat.pow_mod, hodd']
    constructor
    · exact .inl
    · rintro (hlt | ⟨htie, -⟩)
      · exact hlt
      · omega
  · have heven : b % 2 = 0 := by omega
    rcases List.exists_cons_of_ne_nil hne with ⟨d, es, rfl⟩
    have hrest := number_lt (List.forall_mem_cons.mp h).2
    have hunit : b * b ^ es.length = 2 * (b / 2 * b ^ es.length) := by
      rw [← Nat.mul_assoc, Nat.mul_div_cancel' (Nat.dvd_of_mod_eq_zero heven)]
    dsimp only
    rw [number_cons, List.length_cons, pow_succ', hunit]
    split_ifs with hfirst htail
    · -- the first dropped digit decides
      rw [decide_eq_true_iff]
      constructor
      · intro hlt
        have habove : (b / 2 + 1) * b ^ es.length ≤ d.toNat * b ^ es.length :=
          Nat.mul_le_mul_right _ (by omega)
        rw [Nat.add_one_mul] at habove
        omega
      · intro hup
        by_contra hle
        have hbelow : (d.toNat + 1) * b ^ es.length ≤ b / 2 * b ^ es.length :=
          Nat.mul_le_mul_right _ (by omega)
        rw [Nat.add_one_mul] at hbelow
        omega
    · -- one half and a rest
      have hmiddle : d.toNat = b / 2 := by omega
      rw [any_ne_zero_iff hb] at htail
      rw [hmiddle]
      exact iff_of_true rfl (.inl (by omega))
    · -- one half: the last digit kept decides
      have hmiddle : d.toNat = b / 2 := by omega
      rw [any_ne_zero_iff hb] at htail
      rw [hmiddle, getLast?_odd_iff heven]
      omega

/-! ## Rounded digits -/

/-- In units of the last place kept, the digits that are dropped are a fraction. -/
theorem number_mul_zpow (hb : 0 < b) {n : ℕ} (hn : n ≤ ds.length) :
    number b ds * (b : ℚ) ^ ((n : ℤ) - ds.length) =
      number b (ds.take n) + number b (ds.drop n) / ((b ^ (ds.drop n).length : ℕ) : ℚ) := by
  have hbq : (b : ℚ) ≠ 0 := by exact_mod_cast hb.ne'
  have hexp : (n : ℤ) - ds.length = -((ds.drop n).length : ℤ) := by
    rw [List.length_drop, Nat.cast_sub hn, neg_sub]
  have hsplit := number_append (b := b) (ds.take n) (ds.drop n)
  rw [List.take_append_drop] at hsplit
  rw [hexp, zpow_neg, zpow_natCast, hsplit]
  push_cast
  field_simp

/-- Rounding to `n` digits gives these and a carry of one digit at most. They stand for the number
of all digits, in units of the last of the `n` places, rounded half to even. This needs that the
digits kept can be increased if they are. -/
theorem roundTo_isHalfEven_of_increments (hb : 2 ≤ b) (h : ∀ d ∈ ds, d.toNat < b) {n : ℕ}
    (hinc : roundsUp b (ds.take n) (ds.drop n) → Increments b (ds.take n)) :
    (roundTo b n ds).2.length = n + (roundTo b n ds).1 ∧ (roundTo b n ds).1 ≤ 1 ∧
      IsHalfEven (number b (roundTo b n ds).2) (number b ds * (b : ℚ) ^ ((n : ℤ) - ds.length)) := by
  unfold roundTo
  split_ifs with hlen hup
  · -- zeros are put at the end
    have hpow : (b : ℚ) ^ ((n : ℤ) - ds.length) = ((b ^ (n - ds.length) : ℕ) : ℚ) := by
      rw [← Nat.cast_sub hlen, zpow_natCast, Nat.cast_pow]
    refine ⟨by simp [hlen], Nat.zero_le 1, ?_⟩
    rw [number_append, number_replicate, List.length_replicate, Nat.add_zero, hpow, ← Nat.cast_mul]
    exact isHalfEven_natCast _
  all_goals
    have hne : ds.drop n ≠ [] := by
      rw [ne_eq, List.drop_eq_nil_iff]
      exact hlen
    have hdrop : ∀ d ∈ ds.drop n, d.toNat < b := fun d hd => h d (List.mem_of_mem_drop hd)
    have hlength : (ds.take n).length = n := List.length_take_of_le (by omega)
    have hpow : 0 < b ^ (ds.drop n).length := Nat.pow_pos (by omega)
    rw [number_mul_zpow (by omega) (by omega)]
  · rcases hinc hup with ⟨hlen', hnum⟩
    rw [roundsUp_iff (by omega) hne hdrop] at hup
    have hround := isHalfEven_up (k := number b (ds.take n)) hpow (number_lt hdrop).le hup
    rw [← hnum] at hround
    split
    · rename_i out heq
      rw [heq] at hlen' hround
      refine ⟨hlen'.trans hlength, Nat.zero_le 1, ?_⟩
      rwa [Bool.toNat_false, Nat.zero_mul, Nat.zero_add] at hround
    · -- the carry is written as a digit 1
      rename_i out heq
      rw [heq] at hlen' hround
      refine ⟨congrArg (· + 1) (hlen'.trans hlength), le_rfl, ?_⟩
      rw [number_cons, UInt8.toNat_one, hlen']
      exact hround
  · rw [roundsUp_iff (by omega) hne hdrop] at hup
    refine ⟨hlength, Nat.zero_le 1, isHalfEven_down (k := number b (ds.take n)) hpow ?_⟩
    omega

theorem roundTo_isHalfEven (hb : 2 ≤ b) (hb' : b < 256) (h : ∀ d ∈ ds, d.toNat < b) (n : ℕ) :
    (roundTo b n ds).2.length = n + (roundTo b n ds).1 ∧ (roundTo b n ds).1 ≤ 1 ∧
      IsHalfEven (number b (roundTo b n ds).2) (number b ds * (b : ℚ) ^ ((n : ℤ) - ds.length)) := by
  apply roundTo_isHalfEven_of_increments hb h
  intro _
  exact increments_of_lt hb' fun d hd => h d (List.mem_of_mem_take hd)

end Numerals.Layout
