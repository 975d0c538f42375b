import Numerals.Proofs.Integer.Normalized

/-!
# Calculations

A calculation is a sequence of instructions. Each one makes an integer from words, from a text or
from earlier results, and an instruction that fails makes none. Main statement: however long a
calculation is, its results are in the unique form, so that results of any two calculations denote
the same number exactly if they agree in sign and words, and all tests on them are tests on the
numbers they denote.
-/

namespace Numerals.Integer

/-- An instruction of a calculation. Operands are earlier results, by their numbers. -/
inductive Instruction where
  | ofInt64 (n : Int64)
  | ofUInt64 (u : UInt64)
  | read (bytes : List UInt8) (base : ℤ)
  | add (i j : ℕ)
  | sub (i j : ℕ)
  | mul (i j : ℕ)
  | neg (i : ℕ)
  | abs (i : ℕ)
  | mulWord (i : ℕ) (m : UInt32)
  | divWord (i : ℕ) (d : UInt32)
  | shiftLeft (i n : ℕ)
  | pow (i : ℕ) (e : ℤ)
  | powerOfTwo (e : ℤ)
  | powerOfTen (e : ℤ)

/-- The integer that an instruction makes: none if it fails or an operand is missing. -/
def Instruction.result? (earlier : List Integer) : Instruction → Option Integer
  | ofInt64 n => some (Integer.ofInt64 n)
  | ofUInt64 u => some (Integer.ofUInt64 u)
  | read bytes base => (readBytes bytes base).toOption
  | add i j => do ((← earlier[i]?).add (← earlier[j]?)).toOption
  | sub i j => do ((← earlier[i]?).sub (← earlier[j]?)).toOption
  | mul i j => return (← earlier[i]?).mul (← earlier[j]?)
  | neg i => return (← earlier[i]?).neg
  | abs i => return (← earlier[i]?).abs
  | mulWord i m => return (← earlier[i]?).mulWord m
  | divWord i d => do return (← ((← earlier[i]?).divWord d).toOption).1
  | shiftLeft i n => return (← earlier[i]?).shiftLeft n
  | pow i e => do ((← earlier[i]?).pow e).toOption
  | powerOfTwo e => (Integer.powerOfTwo e).toOption
  | powerOfTen e => (Integer.powerOfTen e).toOption

/-- The results of a calculation after those that are already there. -/
def calculate (earlier : List Integer) : List Instruction → List Integer
  | [] => earlier
  | i :: is => calculate (earlier ++ (i.result? earlier).toList) is

variable {earlier : List Integer} {x y : Integer}

/-- An operand is an earlier result. -/
theorem normalized_operand (he : ∀ z ∈ earlier, z.Normalized) {i : ℕ}
    {f : Integer → Option Integer} (h : earlier[i]?.bind f = some x) :
    ∃ a, a.Normalized ∧ f a = some x := by
  obtain ⟨a, ha, hf⟩ := Option.bind_eq_some_iff.mp h
  exact ⟨a, he a (List.mem_of_getElem? ha), hf⟩

theorem ok_of_toOption {α : Type} {r : Result α} {a : α} (h : r.toOption = some a) :
    r = .ok a := by
  cases r with
  | error e => cases h
  | ok b =>
    cases h
    rfl

/-- What one instruction makes of integers in the unique form is in the unique form. -/
theorem Instruction.normalized_result (he : ∀ z ∈ earlier, z.Normalized) {i : Instruction}
    (h : i.result? earlier = some x) : x.Normalized := by
  cases i with
  | ofInt64 n =>
    cases h
    exact normalized_ofInt64 n
  | ofUInt64 u =>
    cases h
    exact normalized_ofUInt64 u
  | read bytes base => exact normalized_readBytes (ok_of_toOption h)
  | add i j =>
    obtain ⟨a, ha, h⟩ := normalized_operand he h
    obtain ⟨b, hb, h⟩ := normalized_operand he h
    exact normalized_add ha hb (ok_of_toOption h)
  | sub i j =>
    obtain ⟨a, ha, h⟩ := normalized_operand he h
    obtain ⟨b, hb, h⟩ := normalized_operand he h
    exact normalized_add ha (normalized_neg hb) (ok_of_toOption h)
  | mul i j =>
    obtain ⟨a, -, h⟩ := normalized_operand he h
    obtain ⟨b, -, h⟩ := normalized_operand he h
    cases h
    exact normalized_mul a b
  | neg i =>
    obtain ⟨a, ha, h⟩ := normalized_operand he h
    cases h
    exact normalized_neg ha
  | abs i =>
    obtain ⟨a, ha, h⟩ := normalized_operand he h
    cases h
    exact normalized_abs ha
  | mulWord i m =>
    obtain ⟨a, -, h⟩ := normalized_operand he h
    cases h
    exact normalized_mulWord a m
  | divWord i d =>
    obtain ⟨a, ha, h⟩ := normalized_operand he h
    obtain ⟨r, hdiv, h⟩ := Option.bind_eq_some_iff.mp h
    cases h
    exact normalized_divWord ha (ok_of_toOption hdiv)
  | shiftLeft i n =>
    obtain ⟨a, ha, h⟩ := normalized_operand he h
    cases h
    exact normalized_shiftLeft ha n
  | pow i e =>
    obtain ⟨a, -, h⟩ := normalized_operand he h
    exact normalized_pow (ok_of_toOption h)
  | powerOfTwo e => exact normalized_powerOfTwo (ok_of_toOption h)
  | powerOfTen e => exact normalized_powerOfTen (ok_of_toOption h)

/-- A calculation that starts with integers in the unique form makes only such integers. -/
theorem normalized_calculate (he : ∀ z ∈ earlier, z.Normalized) (is : List Instruction)
    (h : x ∈ calculate earlier is) : x.Normalized := by
  induction is generalizing earlier with
  | nil => exact he x h
  | cons i is ih =>
    refine ih ?_ h
    intro z hz
    rcases List.mem_append.mp hz with hold | hnew
    · exact he z hold
    · exact i.normalized_result he (Option.mem_toList.mp hnew)

/-- The results of calculations are in the unique form, and signs, words and tests tell them apart
exactly as the numbers they denote. -/
theorem calculate_canonical (is js : List Instruction) (hx : x ∈ calculate [] is)
    (hy : y ∈ calculate [] js) :
    x.Normalized ∧
    (x.toInt = y.toInt ↔ x.sign = y.sign ∧ x.mag = y.mag) ∧
    (x.equal y = true ↔ x.toInt = y.toInt) ∧
    x.compare y = Ord.compare x.toInt y.toInt ∧
    (x.isZero = true ↔ x.toInt = 0) ∧
    (x.isEven = true ↔ Even x.toInt) ∧
    x.bitLength = x.toInt.natAbs.size := by
  have hnx := normalized_calculate (by simp) is hx
  have hny := normalized_calculate (by simp) js hy
  refine ⟨hnx, ?_, hnx.equal_iff hny, hnx.compare_eq hny, hnx.isZero_iff, hnx.isEven_iff,
    hnx.bitLength_eq⟩
  rw [hnx.toInt_inj hny]
  constructor
  · intro h
    rw [h]
    exact ⟨rfl, rfl⟩
  · rintro ⟨hsign, hmag⟩
    cases x
    cases y
    simp_all

/-- A number read from the hexadecimal text `-100000000`, and the next one above it, which is
calculated from a shifted bit and needs one word less. -/
theorem calculate_canonical_neighbours :
    ⟨.negative, [0, 1]⟩ ∈ calculate [] [.read [45, 49, 48, 48, 48, 48, 48, 48, 48, 48] 16] ∧
    ⟨.negative, [4294967295]⟩ ∈ calculate [] [.ofInt64 1, .shiftLeft 0 32, .neg 1, .add 0 2] ∧
    Integer.compare ⟨.negative, [0, 1]⟩ ⟨.negative, [4294967295]⟩ =
      Ord.compare (toInt ⟨.negative, [0, 1]⟩) (toInt ⟨.negative, [4294967295]⟩) ∧
    bitLength ⟨.negative, [0, 1]⟩ = (toInt ⟨.negative, [0, 1]⟩).natAbs.size := by
  have hx : ⟨.negative, [0, 1]⟩ ∈
      calculate [] [.read [45, 49, 48, 48, 48, 48, 48, 48, 48, 48] 16] := by decide
  have hy : ⟨.negative, [4294967295]⟩ ∈
      calculate [] [.ofInt64 1, .shiftLeft 0 32, .neg 1, .add 0 2] := by decide
  obtain ⟨-, -, -, hcompare, -, -, hbits⟩ := calculate_canonical _ _ hx hy
  exact ⟨hx, hy, hcompare, hbits⟩

end Numerals.Integer
