import Numerals.Integer.Magnitude
import Mathlib.Data.List.Basic
import Mathlib.Data.Nat.Size
import Mathlib.Order.Compare
import Mathlib.Tactic.Ring

/-!
# Trimmed magnitudes

A magnitude of `n` words is less than `2 ^ (32 * n)`. If its most significant word is not zero, it
also reaches `2 ^ (32 * (n - 1))`, so that the number of words tells magnitudes of different lengths
apart. Main statements: on trimmed magnitudes, `compare` is the order of the numbers they denote,
and `bitLength` is their length in bits.
-/

namespace Numerals.Magnitude

variable {a b : Magnitude} {d : UInt32} {n : ℕ}

/-- The most significant word, if there is one, is not zero. -/
def Trimmed (a : Magnitude) : Prop :=
  a.getLast? ≠ some 0

theorem trimmed_nil : Trimmed [] := by
  simp [Trimmed]

theorem trimmed_singleton : Trimmed [d] ↔ d ≠ 0 := by
  simp [Trimmed]

theorem trimmed_cons (hb : b ≠ []) : Trimmed (d :: b) ↔ Trimmed b := by
  obtain ⟨e, es, rfl⟩ := List.exists_cons_of_ne_nil hb
  simp [Trimmed]

theorem trimmed_append_singleton : Trimmed (a ++ [d]) ↔ d ≠ 0 := by
  simp [Trimmed]

theorem trim_trimmed (a : Magnitude) : Trimmed a.trim := by
  induction a with
  | nil => exact trimmed_nil
  | cons d ds ih =>
    rw [trim]
    split
    · split
      · exact trimmed_nil
      · rename_i hd
        exact trimmed_singleton.mpr hd
    · rename_i e es heq
      rw [heq] at ih
      exact (trimmed_cons (by simp)).mpr ih

theorem ofWord_ne_nil (u : UInt64) : ofWord u ≠ [] := by
  unfold ofWord
  split <;> simp

/-- The words of a number other than zero are trimmed: the high one is left out exactly if it is
zero, and then the low one is not. -/
theorem ofWord_trimmed {u : UInt64} (hu : u ≠ 0) : Trimmed (ofWord u) := by
  have hval : u.toNat ≠ 0 := fun h => hu (UInt64.toNat_inj.mp h)
  have hlt := u.toNat_lt
  have hhigh : (u >>> 32).toNat = u.toNat / 2 ^ 32 := by
    simp [UInt64.toNat_shiftRight, Nat.shiftRight_eq_div_pow]
  unfold ofWord
  split
  · rename_i hzero
    have hsmall : u.toNat / 2 ^ 32 = 0 := by rw [← hhigh, hzero]; rfl
    rw [trimmed_singleton]
    intro hlow
    have hmod : u.toNat % 2 ^ 32 = 0 := by
      simpa using congrArg UInt32.toNat hlow
    omega
  · -- the high word fits 32 bits, so that it is not zero after the cut either
    rename_i hne
    rw [trimmed_cons (by simp), trimmed_singleton]
    intro hlow
    apply hne
    have hmod : (u >>> 32).toNat % 2 ^ 32 = 0 := by
      simpa using congrArg UInt32.toNat hlow
    apply UInt64.toNat_inj.mp
    rw [hhigh] at hmod ⊢
    change u.toNat / 2 ^ 32 = 0
    omega

/-! ## Bounds -/

theorem toNat_cons (d : UInt32) (a : Magnitude) :
    toNat (d :: a) = d.toNat + 2 ^ 32 * toNat a := rfl

theorem toNat_lt (a : Magnitude) : toNat a < 2 ^ (32 * a.length) := by
  induction a with
  | nil => simp [toNat]
  | cons d ds ih =>
    have hd := d.toNat_lt
    calc toNat (d :: ds) = d.toNat + 2 ^ 32 * toNat ds := toNat_cons d ds
      _ < 2 ^ 32 * (toNat ds + 1) := by omega
      _ ≤ 2 ^ 32 * 2 ^ (32 * ds.length) := Nat.mul_le_mul_left _ ih
      _ = 2 ^ (32 * (d :: ds).length) := by
        rw [← pow_add, List.length_cons]
        ring_nf

theorem toNat_append (a b : Magnitude) :
    toNat (a ++ b) = toNat a + 2 ^ (32 * a.length) * toNat b := by
  induction a with
  | nil => simp [toNat]
  | cons d ds ih =>
    rw [List.cons_append, toNat_cons, toNat_cons, ih, List.length_cons]
    ring

theorem toNat_singleton (d : UInt32) : toNat [d] = d.toNat := by
  simp [toNat]

/-- The number without its most significant word, and that word. -/
theorem toNat_eq_of_getLast? (h : a.getLast? = some d) :
    toNat a = toNat a.dropLast + 2 ^ (32 * (a.length - 1)) * d.toNat := by
  have hsplit : a = a.dropLast ++ [d] := (List.dropLast_append_getLast? d h).symm
  conv_lhs => rw [hsplit]
  rw [toNat_append, toNat_singleton, List.length_dropLast]

theorem pow_le_toNat (ha : Trimmed a) (hne : a ≠ []) : 2 ^ (32 * (a.length - 1)) ≤ toNat a := by
  obtain ⟨d, hlast⟩ := Option.ne_none_iff_exists'.mp (mt List.getLast?_eq_none_iff.mp hne)
  have hd : 1 ≤ d.toNat := by
    apply Nat.one_le_iff_ne_zero.mpr
    intro h
    exact ha (by rw [hlast, UInt32.toNat_inj.mp (h.trans UInt32.toNat_zero.symm)])
  rw [toNat_eq_of_getLast? hlast]
  exact (Nat.le_mul_of_pos_right _ hd).trans (Nat.le_add_left _ _)

theorem toNat_pos (ha : Trimmed a) (hne : a ≠ []) : 0 < toNat a :=
  (Nat.two_pow_pos _).trans_le (pow_le_toNat ha hne)

/-! ## Order -/

/-- With more words, a trimmed magnitude is greater. -/
theorem toNat_lt_of_length_lt (hb : Trimmed b) (h : a.length < b.length) : toNat a < toNat b := by
  have hne : b ≠ [] := List.ne_nil_of_length_pos (by omega)
  calc toNat a < 2 ^ (32 * a.length) := toNat_lt a
    _ ≤ 2 ^ (32 * (b.length - 1)) := Nat.pow_le_pow_right two_pos (by omega)
    _ ≤ toNat b := pow_le_toNat hb hne

/-- A comparison by two keys, the first of which decides if it can. -/
theorem compare_then_eq {h h' m m' : ℕ} {o : Ordering} (hlt : h < h' → m < m')
    (hgt : h' < h → m' < m) (heq : h = h' → o = Ord.compare m m') :
    (Ord.compare h h').then o = Ord.compare m m' := by
  rcases lt_trichotomy h h' with hkey | hkey | hkey
  · rw [compare_lt_iff_lt.mpr hkey, compare_lt_iff_lt.mpr (hlt hkey), Ordering.lt_then]
  · rw [compare_eq_iff_eq.mpr hkey, Ordering.eq_then, heq hkey]
  · rw [compare_gt_iff_gt.mpr hkey, compare_gt_iff_gt.mpr (hgt hkey), Ordering.gt_then]

/-- Words above decide before words below. -/
theorem compareWords_eq (h : a.length = b.length) :
    compareWords a b = Ord.compare a.toNat b.toNat := by
  induction a generalizing b with
  | nil =>
    cases List.length_eq_zero_iff.mp h.symm
    rfl
  | cons d ds ih =>
    obtain ⟨e, es, rfl⟩ := List.exists_cons_of_length_eq_add_one h.symm
    have hd := d.toNat_lt
    have he := e.toNat_lt
    have hword : Ord.compare d e = Ord.compare d.toNat e.toNat := by
      simp only [Ord.compare, compareOfLessAndEq, UInt32.lt_iff_toNat_lt, ← UInt32.toNat_inj]
    rw [compareWords, ih (by simpa using h), hword, toNat_cons, toNat_cons]
    refine compare_then_eq (by omega) (by omega) fun heq => ?_
    -- with equal words above, the lowest ones decide
    have hlow : (Ord.compare d.toNat e.toNat).then .eq =
        Ord.compare (d.toNat + 2 ^ 32 * toNat ds) (e.toNat + 2 ^ 32 * toNat es) :=
      compare_then_eq (by omega) (by omega) fun hde => by
        rw [hde, heq, compare_eq_iff_eq.mpr rfl]
    rwa [Ordering.then_eq] at hlow

theorem compare_eq (ha : Trimmed a) (hb : Trimmed b) :
    compare a b = Ord.compare a.toNat b.toNat := by
  unfold compare
  exact compare_then_eq (toNat_lt_of_length_lt hb) (toNat_lt_of_length_lt ha) compareWords_eq

theorem eq_of_toNat_eq_of_length_eq (hlen : a.length = b.length) (h : toNat a = toNat b) :
    a = b := by
  induction a generalizing b with
  | nil => exact (List.length_eq_zero_iff.mp hlen.symm).symm
  | cons d ds ih =>
    obtain ⟨e, es, rfl⟩ := List.exists_cons_of_length_eq_add_one hlen.symm
    have hd := d.toNat_lt
    have he := e.toNat_lt
    rw [toNat_cons, toNat_cons] at h
    have hword : d = e := UInt32.toNat_inj.mp (by omega)
    have htail : toNat ds = toNat es := by omega
    rw [hword, ih (by simpa using hlen) htail]

/-- Trimmed magnitudes of the same number have the same words. -/
theorem toNat_injOn_trimmed (ha : Trimmed a) (hb : Trimmed b) (h : toNat a = toNat b) : a = b := by
  rcases lt_trichotomy a.length b.length with hlt | heq | hgt
  · exact absurd h (toNat_lt_of_length_lt hb hlt).ne
  · exact eq_of_toNat_eq_of_length_eq heq h
  · exact absurd h (toNat_lt_of_length_lt ha hgt).ne'

/-! ## Bits -/

theorem bitLength_eq_size (ha : Trimmed a) : bitLength a = a.toNat.size := by
  unfold bitLength
  split
  · rename_i hnone
    rw [List.getLast?_eq_none_iff.mp hnone]
    exact Nat.size_zero.symm
  · rename_i top hlast
    have htop : top ≠ 0 := fun h => ha (h ▸ hlast)
    have hnat : top.toNat ≠ 0 := fun h => htop (UInt32.toNat_inj.mp h)
    have hlow := toNat_lt a.dropLast
    have hle := Nat.log2_self_le hnat
    have hlt := Nat.lt_log2_self (n := top.toNat)
    rw [List.length_dropLast] at hlow
    rw [if_neg htop, toNat_eq_of_getLast? hlast]
    -- with the words below as `low` and their bits as `k`, the number is `low + 2 ^ k * top`
    generalize toNat a.dropLast = low at hlow ⊢
    rw [Nat.mul_comm (a.length - 1) 32]
    generalize 32 * (a.length - 1) = k at hlow ⊢
    apply le_antisymm
    · -- the bit at the position of the leading one is reached
      rw [← add_assoc, Nat.add_one_le_iff, Nat.lt_size, pow_add]
      exact (Nat.mul_le_mul_left _ hle).trans (Nat.le_add_left _ _)
    · -- and none above it, whatever the words below are
      rw [Nat.size_le, pow_add]
      calc low + 2 ^ k * top.toNat < 2 ^ k * (top.toNat + 1) := by
            rw [Nat.mul_add_one]
            omega
        _ ≤ 2 ^ k * 2 ^ (top.toNat.log2 + 1) := Nat.mul_le_mul_left _ hlt

theorem toNat_mod_two (d : UInt32) (a : Magnitude) : toNat (d :: a) % 2 = d.toNat % 2 := by
  rw [toNat_cons]
  omega

end Numerals.Magnitude
