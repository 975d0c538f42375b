import Numerals.Binary.Literal
import Numerals.Proofs.Binary.Rounding
import Numerals.Proofs.Text.Numeral
import Mathlib.Data.List.TakeDrop

/-!
# Reading of decimal numerals

A decimal numeral has digits, perhaps a point with further digits, and perhaps an exponent of ten.
Main statement: reading it, with a sign in front, gives the double of that sign in whose interval
the number lies that the numeral denotes.
-/

namespace Numerals

open Text (digitText digitChar pointText signedChars ExponentText IsNumeral)

/-! ## The characters of numerals -/

/-- The characters that occur in decimal numerals. -/
def numeralChars : List Char :=
  ['0', '1', '2', '3', '4', '5', '6', '7', '8', '9', '.', 'e', '+', '-']

theorem numeralChars_spec : ∀ c ∈ numeralChars,
    c ≠ '_' ∧ c.toLower ≠ 'x' ∧ Text.isBlank c = false := by
  have hall : numeralChars.all fun c =>
      decide (c ≠ '_' ∧ c.toLower ≠ 'x' ∧ Text.isBlank c = false) := by rfl
  intro c hc
  exact of_decide_eq_true (List.all_eq_true.mp hall c hc)

theorem digitChar_mem : ∀ d < 10, digitChar d ∈ numeralChars := by decide

theorem digitChar_ne : ∀ d < 10, digitChar d ≠ '-' ∧ digitChar d ≠ '+' ∧
    (digitChar d).toLower ≠ 'n' ∧ (digitChar d).toLower ≠ 'i' := by decide

variable {ws ps : List ℕ} {cs body : List Char} {e : ℤ}

theorem digitText_subset (h : ∀ d ∈ ws, d < 10) : ∀ c ∈ digitText ws, c ∈ numeralChars := by
  intro c hc
  obtain ⟨d, hd, rfl⟩ := List.mem_map.mp hc
  exact digitChar_mem d (h d hd)

theorem decimalNat_subset (n : ℕ) : ∀ c ∈ Text.decimalNat n, c ∈ numeralChars := by
  obtain ⟨ds, hds, -, hlt, -⟩ := Text.exists_digits n
  rw [hds]
  exact digitText_subset hlt

theorem decimalInt_subset (e : ℤ) : ∀ c ∈ Text.decimalInt e, c ∈ numeralChars := by
  cases e with
  | ofNat n => exact decimalNat_subset n
  | negSucc n =>
    intro c hc
    rcases List.mem_cons.mp hc with rfl | hc
    · decide
    · exact decimalNat_subset _ c hc

theorem Text.ExponentText.subset (h : ExponentText cs e) : ∀ c ∈ cs, c ∈ numeralChars := by
  cases h with
  | none => simp
  | plain e =>
    intro c hc
    rcases List.mem_cons.mp hc with rfl | hc
    · decide
    · exact decimalInt_subset _ c hc
  | plus n =>
    intro c hc
    rcases List.mem_cons.mp hc with rfl | hc
    · decide
    · rcases List.mem_cons.mp hc with rfl | hc
      · decide
      · exact decimalNat_subset _ c hc

/-- An exponent, or the end of the text, ends a run of digits and is not a point. -/
theorem Text.ExponentText.head (h : ExponentText cs e) : cs = [] ∨ ∃ rest, cs = 'e' :: rest := by
  cases h with
  | none => exact .inl rfl
  | plain e => exact .inr ⟨_, rfl⟩
  | plus n => exact .inr ⟨_, rfl⟩

theorem Text.IsNumeral.subset (h : IsNumeral 10 body ws ps e) : ∀ c ∈ body, c ∈ numeralChars := by
  obtain ⟨tail, htail, rfl⟩ := h.text
  intro c hc
  rcases List.mem_append.mp hc with hc | hc
  · rcases List.mem_append.mp hc with hc | hc
    · exact digitText_subset h.whole_lt c hc
    · unfold pointText at hc
      split at hc
      · simp at hc
      · rcases List.mem_cons.mp hc with rfl | hc
        · decide
        · exact digitText_subset h.part_lt c hc
  · exact htail.subset c hc

/-- A numeral starts with a digit. -/
theorem Text.IsNumeral.head (h : IsNumeral 10 body ws ps e) :
    ∃ d rest, d < 10 ∧ body = digitChar d :: rest := by
  obtain ⟨tail, -, rfl⟩ := h.text
  cases ws with
  | nil => exact absurd rfl h.whole_ne
  | cons d ws => exact ⟨d, _, h.whole_lt d List.mem_cons_self, rfl⟩

namespace Literal

/-! ## Signs, marks and separators -/

theorem splitSign_of_ne {c : Char} (hm : c ≠ '-') (hp : c ≠ '+') :
    Text.splitSign (c :: cs) = (false, c :: cs) := by
  unfold Text.splitSign
  split
  · rename_i heq
    exact absurd (List.cons.inj heq).1 hm
  · rename_i heq
    exact absurd (List.cons.inj heq).1 hp
  · rfl

theorem separates_of_not_mem {b : ℕ} {afterDigit : Bool} (h : '_' ∉ cs) :
    separates b afterDigit cs := by
  induction cs generalizing afterDigit with
  | nil => rfl
  | cons c cs ih =>
    have hc : c ≠ '_' := fun heq => h (heq ▸ List.mem_cons_self)
    unfold separates
    rw [if_neg hc]
    exact ih fun hmem => h (List.mem_cons_of_mem c hmem)

theorem afterHexMark?_eq_none (h : ∀ c ∈ cs, c.toLower ≠ 'x') : afterHexMark? cs = none := by
  unfold afterHexMark?
  split
  · rename_i c cs
    exact if_neg (h c (by simp))
  · rfl

theorem isWord_eq_false {name : String} {c : Char} (h : name.toList.head? ≠ some c.toLower) :
    isWord name (c :: cs) = false := by
  unfold isWord
  rw [beq_eq_false_iff_ne]
  intro heq
  rw [← heq] at h
  exact h rfl

theorem splitSign_signedChars (h : IsNumeral 10 body ws ps e) (negative : Bool) :
    Text.splitSign (signedChars negative body) = (negative, body) := by
  obtain ⟨d, rest, hd, rfl⟩ := h.head
  obtain ⟨hminus, hplus, -, -⟩ := digitChar_ne d hd
  cases negative
  · exact splitSign_of_ne hminus hplus
  · rfl

theorem special?_signedChars (h : IsNumeral 10 body ws ps e) (negative : Bool) :
    special? (signedChars negative body) = none := by
  have hsplit := splitSign_signedChars h negative
  obtain ⟨d, rest, hd, rfl⟩ := h.head
  obtain ⟨-, -, hn, hi⟩ := digitChar_ne d hd
  have hnan : isWord "nan" (signedChars negative (digitChar d :: rest)) = false := by
    cases negative
    · exact isWord_eq_false (by simpa using hn.symm)
    · exact isWord_eq_false (by decide)
  have hinf : isWord "inf" (digitChar d :: rest) = false :=
    isWord_eq_false (by simpa using hi.symm)
  have hinfinity : isWord "infinity" (digitChar d :: rest) = false :=
    isWord_eq_false (by simpa using hi.symm)
  unfold special?
  rw [hsplit]
  simp [hnan, hinf, hinfinity]

/-- A numeral with a sign is read as its body. -/
theorem parse?_signedChars (h : IsNumeral 10 body ws ps e) (negative : Bool) :
    parse? (signedChars negative body) = decimal? negative body := by
  have hsplit := splitSign_signedChars h negative
  have hmark : afterHexMark? body = none :=
    afterHexMark?_eq_none fun c hc => (numeralChars_spec c (h.subset c hc)).2.1
  have hunder : '_' ∉ body := fun hmem => (numeralChars_spec _ (h.subset _ hmem)).1 rfl
  have hsep : wellSeparated (signedChars negative body) := by
    unfold wellSeparated
    rw [hsplit]
    dsimp only
    rw [hmark]
    exact separates_of_not_mem hunder
  have hfilter : (signedChars negative body).filter (· ≠ '_') = signedChars negative body := by
    rw [List.filter_eq_self]
    intro c hc
    have hne : c ≠ '_' := by
      rintro rfl
      cases negative
      · exact hunder hc
      · rcases List.mem_cons.mp hc with heq | hc
        · exact absurd heq (by decide)
        · exact hunder hc
    simpa using hne
  unfold parse?
  rw [special?_signedChars h]
  dsimp only
  rw [if_pos hsep, hfilter]
  unfold number?
  rw [hsplit]
  dsimp only
  rw [hmark]

/-! ## Digits and exponents -/

theorem digits_digitText {b : ℕ} (hb : b ≤ 36) (h : ∀ d ∈ ws, d < b)
    (hcs : ∀ c ∈ cs.head?, Text.isDigit b c = false) :
    digits b (digitText ws ++ cs) = (digitText ws, cs) := by
  have hall := Text.all_isDigit_digitText hb h
  unfold digits
  rw [List.span_eq_takeWhile_dropWhile, List.takeWhile_append_of_pos hall,
    List.dropWhile_append_of_pos hall]
  cases cs with
  | nil => simp
  | cons c cs =>
    have hc : Text.isDigit b c = false := hcs c rfl
    simp [hc]

/-- The cap on exponents has no effect on those with at most five digits. -/
theorem exponentValue_digitText (h : ∀ d ∈ ws, d < 10) (hlt : wholeNumber 10 ws < 100000) :
    exponentValue (digitText ws) = wholeNumber 10 ws := by
  -- the induction is on the last digit, since the cap compares with what was read before it
  induction ws using List.reverseRecOn with
  | nil => rfl
  | append_singleton ws d ih =>
    have hd : d < 10 := h d (by simp)
    have hlast : wholeNumber 10 (ws ++ [d]) = wholeNumber 10 ws * 10 + d := by
      rw [wholeNumber_append, Text.wholeNumber_singleton, List.length_singleton, pow_one]
    rw [hlast] at hlt ⊢
    have ih := ih (fun e he => h e (by simp [he])) (by omega)
    unfold exponentValue at ih ⊢
    rw [Text.digitText_append, List.foldl_append, ih]
    simp only [digitText, List.map_cons, List.map_nil, List.foldl_cons, List.foldl_nil]
    rw [if_pos (by omega), Text.digitValue?_digitChar d (by omega)]
    rfl

theorem exponent?_of_splitSign {negative : Bool}
    (hsplit : Text.splitSign cs = (negative, digitText ws)) (hne : ws ≠ [])
    (h : ∀ d ∈ ws, d < 10) (hlt : wholeNumber 10 ws < 100000) :
    exponent? 'e' ('e' :: cs) = some (Text.signedInt negative (wholeNumber 10 ws)) := by
  have hall : (digitText ws).all (Text.isDigit 10) :=
    List.all_eq_true.mpr (Text.all_isDigit_digitText (by decide) h)
  have hempty : (digitText ws).isEmpty = false := by
    cases ws with
    | nil => exact absurd rfl hne
    | cons d ws => rfl
  unfold exponent?
  dsimp only
  rw [hsplit]
  dsimp only
  rw [hall, hempty, exponentValue_digitText h hlt]
  rfl

theorem exponent?_of_exponentText (h : ExponentText cs e) (hcs : cs ≠ []) (he : e.natAbs < 100000) :
    exponent? 'e' cs = some e := by
  cases h with
  | none => exact absurd rfl hcs
  | plain e =>
    cases e with
    | ofNat n =>
      obtain ⟨ds, htext, hne, hlt, hnum⟩ := Text.exists_digits n
      have hsplit : Text.splitSign (Text.decimalInt (.ofNat n)) = (false, digitText ds) := by
        rw [Text.decimalInt, htext]
        cases ds with
        | nil => exact absurd rfl hne
        | cons d ds =>
          obtain ⟨hminus, hplus, -⟩ := digitChar_ne d (hlt d List.mem_cons_self)
          exact splitSign_of_ne hminus hplus
      rw [exponent?_of_splitSign hsplit hne hlt (by rw [hnum]; exact he), hnum]
      rfl
    | negSucc n =>
      obtain ⟨ds, htext, hne, hlt, hnum⟩ := Text.exists_digits (n + 1)
      have hsplit : Text.splitSign (Text.decimalInt (.negSucc n)) = (true, digitText ds) := by
        rw [Text.decimalInt, htext]
        rfl
      rw [exponent?_of_splitSign hsplit hne hlt (by rw [hnum]; exact he), hnum]
      rfl
  | plus n =>
    obtain ⟨ds, htext, hne, hlt, hnum⟩ := Text.exists_digits n
    have hsplit : Text.splitSign ('+' :: Text.decimalNat n) = (false, digitText ds) := by
      rw [htext]
      rfl
    rw [exponent?_of_splitSign hsplit hne hlt (by rw [hnum]; exact he), hnum]
    rfl

/-- The digits before the point and after it end where neither a digit nor a point follows. -/
theorem mantissa?_digitText {b : ℕ} (hb : b ≤ 36) (hne : ws ≠ []) (hws : ∀ d ∈ ws, d < b)
    (hps : ∀ d ∈ ps, d < b) (hcs : ∀ c ∈ cs.head?, Text.isDigit b c = false ∧ c ≠ '.') :
    mantissa? b (digitText ws ++ pointText ps ++ cs) = some (digitText ws, digitText ps, cs) := by
  have hdigit : ∀ c ∈ cs.head?, Text.isDigit b c = false := fun c hc => (hcs c hc).1
  have hempty : (digitText ws).isEmpty = false := by
    cases ws with
    | nil => exact absurd rfl hne
    | cons d ws => rfl
  unfold mantissa?
  by_cases hps0 : ps = []
  · -- without a point the digits end at the exponent or at the end of the text
    have hfrac : fraction b cs = ([], cs) := by
      unfold fraction
      split
      · exact absurd rfl (hcs '.' rfl).2
      · rfl
    rw [hps0, pointText, if_pos rfl, List.append_nil, digits_digitText hb hws hdigit]
    dsimp only
    rw [hfrac]
    simp [hempty, show digitText [] = [] from rfl]
  · have hpoint : ∀ c ∈ ('.' :: (digitText ps ++ cs)).head?, Text.isDigit b c = false := by
      intro c hc
      obtain rfl : '.' = c := by simpa using hc
      rfl
    have hfrac : fraction b ('.' :: (digitText ps ++ cs)) = (digitText ps, cs) :=
      digits_digitText hb hps hdigit
    rw [pointText, if_neg hps0, List.append_assoc, List.cons_append, digits_digitText hb hws hpoint]
    dsimp only
    rw [hfrac]
    simp [hempty]

theorem mantissa?_of_isNumeral (hne : ws ≠ []) (hws : ∀ d ∈ ws, d < 10) (hps : ∀ d ∈ ps, d < 10)
    (hcs : ExponentText cs e) :
    mantissa? 10 (digitText ws ++ pointText ps ++ cs) = some (digitText ws, digitText ps, cs) := by
  apply mantissa?_digitText (by decide) hne hws hps
  rcases hcs.head with rfl | ⟨rest, rfl⟩
  · simp
  · intro c hc
    obtain rfl : 'e' = c := by simpa using hc
    decide

/-- The literal that a numeral is. -/
theorem decimal?_of_isNumeral (h : IsNumeral 10 body ws ps e) (he : e.natAbs < 100000)
    (negative : Bool) :
    decimal? negative body =
      some (.number negative (wholeNumber 10 (ws ++ ps)) 10 (e - ps.length)) := by
  obtain ⟨tail, htail, rfl⟩ := h.text
  have hvalue : Text.valueOf 10 (digitText ws ++ digitText ps) = wholeNumber 10 (ws ++ ps) := by
    rw [← Text.digitText_append]
    apply Text.valueOf_digitText
    intro d hd
    rcases List.mem_append.mp hd with hd | hd
    · have := h.whole_lt d hd
      omega
    · have := h.part_lt d hd
      omega
  unfold decimal?
  rw [mantissa?_of_isNumeral h.whole_ne h.whole_lt h.part_lt htail]
  rcases htail.head with rfl | ⟨rest, rfl⟩
  · cases htail
    simp [hvalue, Text.length_digitText]
  · have hexp := exponent?_of_exponentText htail (by simp) he
    simp [hexp, hvalue, Text.length_digitText]

end Literal

/-- There is nothing to trim from a text without blanks. -/
theorem Text.trim_ofList (h : ∀ c ∈ cs, isBlank c = false) :
    trim (String.ofList cs) = String.ofList cs := by
  have hdrop : ∀ {ds : List Char}, (∀ c ∈ ds, isBlank c = false) → ds.dropWhile isBlank = ds := by
    intro ds hds
    cases ds with
    | nil => rfl
    | cons c ds => rw [List.dropWhile_cons, hds c List.mem_cons_self]; rfl
  unfold trim
  rw [String.toList_ofList, hdrop h, hdrop fun c hc => h c (List.mem_reverse.mp hc),
    List.reverse_reverse]

namespace Binary64

open FloatFormat (binary64)

variable {x : Binary64}

/-- A numeral with the sign of a finite double in whose interval it lies is read as this double. -/
theorem ofText?_numeral (h : IsNumeral 10 body ws ps e) (he : e.natAbs < 100000) (hx : x.isFinite)
    (hq : Text.numeralValue 10 ws ps e ∈ binary64.rankInterval x.rank) :
    ofText? (String.ofList (signedChars x.isNegative body)) = some (x, false) := by
  have hratio : ((wholeNumber 10 (ws ++ ps) * Nat.pow 10 (e - ps.length).toNat : ℕ) : ℚ) /
      (Nat.pow 10 (-(e - ps.length)).toNat : ℕ) = Text.numeralValue 10 ws ps e := by
    rw [Text.numeralValue, zpow_eq_div _ (by norm_num)]
    simp only [Nat.pow_eq]
    push_cast
    rw [mul_div_assoc]
  rw [← hratio] at hq
  have henc := encodeRatio_of_mem (d := Nat.pow 10 (-(e - ps.length)).toNat)
    (Nat.pow_pos (by decide)) (isFinite_iff.mp hx) hq x.isNegative
  unfold ofText?
  rw [String.toList_ofList, Literal.parse?_signedChars h, Literal.decimal?_of_isNumeral h he]
  simp only [Option.map_some, Literal.nearest]
  rw [henc, ← bits_eq_withSign]
  simp

/-- `s` is read as `x`, both where nothing but a number may stand and where blanks may stand around
it. -/
structure ReadsAs (s : String) (x : Binary64) : Prop where
  strict : ofText s = .ok x
  lenient : ofTextOrNaN s = x

theorem ReadsAs.of_ofText? (h : ofText? (String.ofList cs) = some (x, false))
    (hcs : ∀ c ∈ cs, Text.isBlank c = false) : ReadsAs (String.ofList cs) x := by
  constructor
  · unfold ofText
    rw [h]
  · unfold ofTextOrNaN
    rw [Text.trim_ofList hcs, h]

/-- A numeral with the sign of a finite double in whose interval it lies is read as this double. -/
theorem readsAs_of_denotes {m : ℕ} {q : ℚ} (h : Text.Denotes 10 body m q) (hm : m < 100000)
    (hx : x.isFinite) (hq : q ∈ binary64.rankInterval x.rank) :
    ReadsAs (String.ofList (signedChars x.isNegative body)) x := by
  obtain ⟨ws, ps, e, hnumeral, he, rfl⟩ := h
  refine .of_ofText? (ofText?_numeral hnumeral (by omega) hx hq) ?_
  have hbody : ∀ c ∈ body, Text.isBlank c = false :=
    fun c hc => (numeralChars_spec c (hnumeral.subset c hc)).2.2
  cases x.isNegative
  · exact hbody
  · intro c hc
    rcases List.mem_cons.mp hc with rfl | hc
    · decide
    · exact hbody c hc

end Binary64

end Numerals
