import Numerals.Proofs.Binary.Rounding
import Numerals.Proofs.Command.Arguments
import Numerals.Proofs.Lazy.Moments
import Numerals.Proofs.Lazy.Supply

/-!
# Literals past the largest double

A literal is read in two places. Where nothing but a number may stand, one past the largest double
is read as an infinity; the built-in function that reads doubles from texts gives a NaN for it. Main
statement: that is the only difference. Up to blanks around the text, the two readers find the same
double for all other literals, and for a number it is the nearest one; what is no literal is refused
by the one and gives a NaN with the other.
-/

namespace Numerals

/-! ## The border of overflow -/

namespace Binary64

open FloatFormat (binary64)

/-- A ratio has no finite double from the half-way point past the largest one on. -/
theorem infinityWord_le_nearestRank_iff {n d : ℕ} (hd : 0 < d) :
    binary64.infinityWord ≤ binary64.nearestRank n d ↔ (2 ^ 1024 - 2 ^ 970 : ℚ) ≤ n / d := by
  have hmem := binary64.nearestRank_mem (by decide) n hd
  constructor
  · intro hrank
    have hpos : 0 < binary64.infinityWord := by decide
    rw [← midpoint_last]
    calc binary64.midpoint (binary64.infinityWord - 1)
        ≤ binary64.midpoint (binary64.nearestRank n d - 1) :=
          binary64.midpoint_strictMono.monotone (by omega)
      _ = binary64.lowerEnd (binary64.nearestRank n d) := by
          rw [FloatFormat.midpoint_eq_lowerEnd, Nat.sub_add_cancel (by omega)]
      _ ≤ n / d := hmem.1.le
  · intro hq
    by_contra hlt
    exact absurd (lt_of_mem_rankInterval (by omega) hmem) (not_lt.mpr hq)

theorem fields_of_withSign {x : Binary64} {negative : Bool} {w : ℕ} (hw : w < binary64.signWord)
    (h : x.bits.toNat = binary64.withSign negative w) : x.isNegative = negative ∧ x.rank = w := by
  have hbits := x.bits_eq_withSign
  have hrank := x.rank_lt
  rw [h] at hbits
  unfold FloatFormat.withSign at hbits
  generalize x.isNegative = sign at hbits ⊢
  cases negative <;> cases sign <;> simp at hbits ⊢ <;> omega

end Binary64

namespace Literal

open FloatFormat (binary64)

variable {negative : Bool} {m b : ℕ} {e : ℤ} {cs : List Char}

theorem base_of_parse? (h : parse? cs = some (.number negative m b e)) : 0 < b := by
  unfold parse? at h
  split at h
  · rename_i l hspecial
    exact absurd (hspecial.trans h) (special?_ne_number _)
  · split_ifs at h
    unfold number? at h
    dsimp only at h
    split at h
    · rw [(number_of_hexadecimal? h).2]
      decide
    · rw [(number_of_decimal? h).2]
      decide

theorem ratio_eq (hb : 0 < b) :
    ((m * Nat.pow b e.toNat : ℕ) : ℚ) / (Nat.pow b (-e).toNat : ℕ) = m * (b : ℚ) ^ e := by
  rw [zpow_eq_div _ (by positivity)]
  simp only [Nat.pow_eq]
  push_cast
  rw [mul_div_assoc]

/-- A number below the border has a finite double of its sign, which is the nearest one. -/
theorem nearest_of_lt (hb : 0 < b) (hq : (m * (b : ℚ) ^ e) < 2 ^ 1024 - 2 ^ 970) :
    ∃ x : Binary64, (number negative m b e).nearest = (x, false) ∧ x.isNegative = negative ∧
      x.abs.IsNearest (m * (b : ℚ) ^ e) := by
  have hd : 0 < Nat.pow b (-e).toNat := Nat.pow_pos hb
  set w := binary64.nearestRank (m * Nat.pow b e.toNat) (Nat.pow b (-e).toNat) with hw
  have hmem := binary64.nearestRank_mem (by decide) (m * Nat.pow b e.toNat) hd
  rw [ratio_eq hb, ← hw] at hmem
  have hfinite : w < binary64.infinityWord := by
    rw [← not_le, hw, Binary64.infinityWord_le_nearestRank_iff hd, ratio_eq hb, not_le]
    exact hq
  have hlt : w < binary64.signWord := hfinite.trans binary64.infinityWord_lt_signWord
  have hword : binary64.withSign negative w < 2 ^ 64 := by
    have hsign : binary64.signWord = 2 ^ 63 := rfl
    unfold FloatFormat.withSign
    split_ifs <;> omega
  obtain ⟨hsign, hrank⟩ := Binary64.fields_of_withSign
    (x := ⟨(binary64.withSign negative w).toUInt64⟩) hlt (UInt64.toNat_ofNat_of_lt' hword)
  refine ⟨_, ?_, hsign, ?_⟩
  · unfold nearest FloatFormat.encodeRatio
    dsimp only
    rw [← hw, if_neg (not_le.mpr hfinite)]
  · refine Binary64.isNearest_of_mem ?_ (Binary64.isNegative_abs _) ?_
    · rwa [Binary64.isFinite_iff, Binary64.rank_abs, hrank]
    · rwa [Binary64.rank_abs, hrank]

/-- A number from the border on overflows to the infinity of its sign. -/
theorem nearest_of_le (hb : 0 < b) (hq : 2 ^ 1024 - 2 ^ 970 ≤ (m * (b : ℚ) ^ e)) :
    (number negative m b e).nearest = (.ofValue (.infinite negative), true) := by
  have hd : 0 < Nat.pow b (-e).toNat := Nat.pow_pos hb
  have hinfinite := (Binary64.infinityWord_le_nearestRank_iff hd).mpr
    (hq.trans_eq (ratio_eq hb).symm)
  unfold nearest FloatFormat.encodeRatio
  dsimp only
  rw [if_pos hinfinite]
  rfl

end Literal

/-! ## The two readers -/

namespace Binary64

variable {s t : String} {x : Binary64}

/-- The text is a number of the given sign that is past the largest double. -/
def Overflows (t : String) (negative : Bool) : Prop :=
  ∃ m b e, Literal.parse? t.toList = some (.number negative m b e) ∧
    (2 ^ 1024 - 2 ^ 970 : ℚ) ≤ m * (b : ℚ) ^ e

theorem Overflows.ofText? {negative : Bool} (h : Overflows t negative) :
    ofText? t = some (.ofValue (.infinite negative), true) := by
  obtain ⟨m, b, e, hparse, hq⟩ := h
  unfold Binary64.ofText?
  rw [hparse, Option.map_some, Literal.nearest_of_le (Literal.base_of_parse? hparse) hq]

/-- A number that does not overflow has the nearest double of its sign. -/
theorem exists_ofText?_number {negative : Bool} {m b : ℕ} {e : ℤ} (h : ¬Overflows t negative)
    (hparse : Literal.parse? t.toList = some (.number negative m b e)) :
    ∃ x, ofText? t = some (x, false) ∧ x.isNegative = negative ∧
      x.abs.IsNearest (m * (b : ℚ) ^ e) := by
  have hq : ¬(2 ^ 1024 - 2 ^ 970 : ℚ) ≤ m * (b : ℚ) ^ e :=
    fun hle => h ⟨m, b, e, hparse, hle⟩
  obtain ⟨x, hx, hnearest⟩ :=
    Literal.nearest_of_lt (Literal.base_of_parse? hparse) (not_le.mp hq)
  refine ⟨x, ?_, hnearest⟩
  unfold Binary64.ofText?
  rw [hparse, Option.map_some, hx]

/-- A text that does not overflow is no literal, or has a double. -/
theorem ofText?_of_not_overflows (h : ∀ negative, ¬Overflows t negative) :
    ofText? t = none ∨ ∃ x, ofText? t = some (x, false) := by
  cases hparse : Literal.parse? t.toList with
  | none => exact .inl (congrArg (Option.map Literal.nearest) hparse)
  | some l =>
    right
    cases l with
    | nan => exact ⟨_, congrArg (Option.map Literal.nearest) hparse⟩
    | infinite negative => exact ⟨_, congrArg (Option.map Literal.nearest) hparse⟩
    | number negative m b e =>
      obtain ⟨x, hx, -⟩ := exists_ofText?_number (h negative) hparse
      exact ⟨x, hx⟩

theorem ofTextOrNaN_of_none (h : ofText? (Text.trim s) = none) : ofTextOrNaN s = .nan := by
  unfold ofTextOrNaN
  rw [h]

theorem ofTextOrNaN_of_some {overflow : Bool} (h : ofText? (Text.trim s) = some (x, overflow)) :
    ofTextOrNaN s = if overflow then .nan else x := by
  unfold ofTextOrNaN
  rw [h]
  cases overflow <;> rfl

theorem ofText_of_some {overflow : Bool} (h : ofText? t = some (x, overflow)) :
    ofText t = .ok x := by
  unfold ofText
  rw [h]

theorem ofText_of_none (h : ofText? t = none) (x : Binary64) : ofText t ≠ .ok x := by
  unfold ofText
  rw [h]
  nofun

end Binary64

namespace Lazy

open Binary64 (ofText ofTextOrNaN Overflows)

theorem evaluates_readDouble (st : Store) (s : String) :
    Evaluates st (Registry.builtins.call "readDouble" [.text s])
      (.value (.constant (.float64 (ofTextOrNaN s)))) st := by
  have hlen : [Value.text s].length = Builtin.readDouble.arity := rfl
  -- the argument is forced, checked and read
  exact Reaches.evaluates ((reaches_supply hlen).trans
    (.head rfl (.head rfl (.head rfl (.single rfl)))))

/-- The built-in function that reads a double from a text `s`, and the reader of numbers on the text
without the blanks around it.
* If the text does not overflow, the function yields the same double as the reader, and it yields a
  NaN exactly if the text is no literal or is read as a NaN. For a number it is the nearest double
  of its sign.
* If the text overflows, the reader yields the infinity of its sign, and the function a NaN. -/
theorem readDouble_agrees (st : Store) (s : String) :
    ∃ y : Binary64, Evaluates st (Registry.builtins.call "readDouble" [.text s])
        (.value (.constant (.float64 y))) st ∧
      ((∀ negative, ¬Overflows (Text.trim s) negative) →
        (∀ x, ofText (Text.trim s) = .ok x → y = x) ∧
        (y.isNaN ↔ (∀ x, ofText (Text.trim s) ≠ .ok x) ∨
          ∃ x, ofText (Text.trim s) = .ok x ∧ x.isNaN) ∧
        ∀ negative m b e, Literal.parse? (Text.trim s).toList = some (.number negative m b e) →
          y.isNegative = negative ∧ y.abs.IsNearest (m * (b : ℚ) ^ e)) ∧
      ∀ negative, Overflows (Text.trim s) negative →
        ofText (Text.trim s) = .ok (.ofValue (.infinite negative)) ∧ y.isNaN := by
  refine ⟨ofTextOrNaN s, evaluates_readDouble st s, ?_, ?_⟩
  · intro hno
    rcases Binary64.ofText?_of_not_overflows hno with hnone | ⟨x, hx⟩
    · have hrefused := Binary64.ofText_of_none hnone
      rw [Binary64.ofTextOrNaN_of_none hnone]
      refine ⟨?_, ?_, ?_⟩
      · intro x hx
        exact absurd hx (hrefused x)
      · exact ⟨fun _ => .inl hrefused, fun _ => by decide⟩
      · intro negative m b e hparse
        obtain ⟨x, hx, -⟩ := Binary64.exists_ofText?_number (hno negative) hparse
        cases hnone.symm.trans hx
    · have hread := Binary64.ofText_of_some hx
      rw [Binary64.ofTextOrNaN_of_some hx, if_neg (by simp)]
      refine ⟨?_, ?_, ?_⟩
      · intro x' hx'
        exact Except.ok.inj (hread.symm.trans hx')
      · constructor
        · intro hnan
          exact .inr ⟨x, hread, hnan⟩
        · rintro (hrefused | ⟨x', hx', hnan⟩)
          · exact absurd hread (hrefused x)
          · rwa [Except.ok.inj (hread.symm.trans hx')]
      · intro negative m b e hparse
        obtain ⟨x', hx', hnearest⟩ := Binary64.exists_ofText?_number (hno negative) hparse
        cases hx.symm.trans hx'
        exact hnearest
  · intro negative hover
    rw [Binary64.ofTextOrNaN_of_some hover.ofText?, if_pos rfl]
    exact ⟨Binary64.ofText_of_some hover.ofText?, by decide⟩

/-- Ten to the 400 is read as infinity by the one and as a NaN by the other. -/
theorem readDouble_overflow_nan :
    ofText (Text.trim "1e400") = .ok ⟨0x7FF0000000000000⟩ ∧
      (⟨0x7FF0000000000000⟩ : Binary64).isInfinite ∧
      ∃ y : Binary64, Evaluates Store.empty (Registry.builtins.call "readDouble" [.text "1e400"])
        (.value (.constant (.float64 y))) Store.empty ∧ y.isNaN := by
  refine ⟨by decide +kernel, by decide, _, evaluates_readDouble _ _, by decide +kernel⟩

end Lazy

end Numerals
