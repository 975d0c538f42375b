import Numerals.Text.Blank
import Mathlib.Data.List.TakeWhile

/-!
# Fields of a text

A text in which words stand with blanks between them, and perhaps around them, has these words as
its fields, however many blanks there are. Blanks at the two ends of a text make no difference.
-/

namespace Numerals.Text

variable {c : Char} {cs bs w rest : List Char} {vs : List String} {text : String}

/-! ## Words of a list of characters -/

theorem wordsFrom_cons (c : Char) (cs : List Char) :
    wordsFrom (c :: cs) =
      if isBlank c then ([], words cs) else (c :: (wordsFrom cs).1, (wordsFrom cs).2) := by
  unfold words wordsFrom
  rw [List.foldr_cons]

theorem words_cons_of_isBlank (hc : isBlank c) (cs : List Char) : words (c :: cs) = words cs := by
  unfold words
  rw [wordsFrom_cons, if_pos hc]
  rfl

/-- Blanks before a text have no part in its words. -/
theorem words_blanks_append (hbs : ∀ c ∈ bs, isBlank c) (cs : List Char) :
    words (bs ++ cs) = words cs := by
  induction bs with
  | nil => rfl
  | cons b bs ih =>
    rw [List.cons_append, words_cons_of_isBlank (hbs b List.mem_cons_self)]
    apply ih
    intro c hc
    exact hbs c (List.mem_cons_of_mem b hc)

theorem wordsFrom_blanks (hbs : ∀ c ∈ bs, isBlank c) : wordsFrom bs = ([], []) := by
  cases bs with
  | nil => rfl
  | cons b bs =>
    have hwords : words bs = [] := by
      have h := words_blanks_append (fun c hc => hbs c (List.mem_cons_of_mem b hc)) []
      rwa [List.append_nil] at h
    rw [wordsFrom_cons, if_pos (hbs b List.mem_cons_self), hwords]

/-- Blanks after a text have no part in its words. -/
theorem words_append_blanks (cs : List Char) (hbs : ∀ c ∈ bs, isBlank c) :
    words (cs ++ bs) = words cs := by
  have hfrom : wordsFrom (cs ++ bs) = wordsFrom cs := by
    induction cs with
    | nil => exact wordsFrom_blanks hbs
    | cons c cs ih => rw [List.cons_append, wordsFrom_cons, wordsFrom_cons, words, words, ih]
  unfold words
  rw [hfrom]

/-- What begins with a blank has no word at its start. -/
theorem wordsFrom_of_head (hrest : ∀ c ∈ rest.head?, isBlank c) :
    wordsFrom rest = ([], words rest) := by
  cases rest with
  | nil => rfl
  | cons c rest =>
    have hc := hrest c rfl
    rw [wordsFrom_cons, if_pos hc, words_cons_of_isBlank hc]

theorem wordsFrom_append (hw : ∀ c ∈ w, isBlank c = false)
    (hrest : ∀ c ∈ rest.head?, isBlank c) : wordsFrom (w ++ rest) = (w, words rest) := by
  induction w with
  | nil => exact wordsFrom_of_head hrest
  | cons c w ih =>
    have hc := hw c List.mem_cons_self
    have ih := ih fun c' hc' => hw c' (List.mem_cons_of_mem c hc')
    rw [List.cons_append, wordsFrom_cons, if_neg (by simp [hc]), ih]

/-- A word ends where a blank or nothing follows. -/
theorem words_append (hne : w ≠ []) (hw : ∀ c ∈ w, isBlank c = false)
    (hrest : ∀ c ∈ rest.head?, isBlank c) : words (w ++ rest) = w :: words rest := by
  have hempty : w.isEmpty = false := List.isEmpty_eq_false_iff.mpr hne
  unfold words
  rw [wordsFrom_append hw hrest]
  unfold consWord
  rw [if_neg (by simp [hempty])]
  rfl

/-! ## Fields of a text -/

theorem trim_eq (s : String) : ∃ before after : List Char,
    (∀ c ∈ before, isBlank c) ∧ (∀ c ∈ after, isBlank c) ∧
      s.toList = before ++ ((trim s).toList ++ after) := by
  set rest := s.toList.dropWhile isBlank with hrest
  refine ⟨s.toList.takeWhile isBlank, (rest.reverse.takeWhile isBlank).reverse, ?_, ?_, ?_⟩
  · intro c hc
    exact List.mem_takeWhile_imp hc
  · intro c hc
    exact List.mem_takeWhile_imp (List.mem_reverse.mp hc)
  · unfold trim
    rw [String.toList_ofList, ← List.reverse_append, List.takeWhile_append_dropWhile,
      List.reverse_reverse, hrest, List.takeWhile_append_dropWhile]

/-- The blanks at the two ends of a text have no part in its fields. -/
theorem fields_trim (s : String) : fields (trim s) = fields s := by
  rcases trim_eq s with ⟨before, after, hbefore, hafter, hs⟩
  unfold fields
  rw [hs, words_blanks_append hbefore, words_append_blanks _ hafter]

theorem trim_isEmpty_of_ne {s : String} (h : fields s ≠ []) : (trim s).isEmpty = false := by
  rw [← fields_trim] at h
  by_contra hempty
  rw [Bool.not_eq_false, String.isEmpty_iff] at hempty
  rw [hempty] at h
  exact h rfl

/-- There is nothing but blanks in the text. -/
def IsBlankText (s : String) : Prop :=
  ∀ c ∈ s.toList, isBlank c

/-- The text is not empty, and no blank is in it. -/
def IsWord (s : String) : Prop :=
  s ≠ "" ∧ ∀ c ∈ s.toList, isBlank c = false

instance (s : String) : Decidable (IsBlankText s) :=
  decidable_of_iff (s.toList.all isBlank = true) List.all_eq_true

instance (s : String) : Decidable (IsWord s) :=
  decidable_of_iff (s ≠ "" ∧ s.toList.all (!isBlank ·) = true) (by simp [IsWord])

/-- The text consists of the given words, with at least one blank between any two of them and any
number of blanks around them. -/
inductive Spaced : List String → String → Prop
  | last (before v after : String) (hbefore : IsBlankText before) (hafter : IsBlankText after) :
      Spaced [v] (before ++ v ++ after)
  | cons (before v gap : String) {vs : List String} {rest : String} (hbefore : IsBlankText before)
      (hgap : IsBlankText gap) (hne : gap ≠ "") (hrest : Spaced vs rest) :
      Spaced (v :: vs) (before ++ v ++ gap ++ rest)

/-- Blanks, a word, and a text that is blank or begins with a blank. -/
theorem fields_append {before v rest : String} (hbefore : IsBlankText before) (hv : IsWord v)
    (hrest : ∀ c ∈ rest.toList.head?, isBlank c) :
    fields (before ++ v ++ rest) = v :: fields rest := by
  have hne : v.toList ≠ [] := fun h => hv.1 (String.toList_eq_nil_iff.mp h)
  unfold fields
  rw [String.toList_append, String.toList_append, List.append_assoc, words_blanks_append hbefore,
    words_append hne hv.2 hrest, List.map_cons, String.ofList_toList]

/-- The fields of a text are the words that it consists of. -/
theorem Spaced.fields_eq (h : Spaced vs text) (hwords : ∀ v ∈ vs, IsWord v) : fields text = vs := by
  induction h with
  | last before v after hbefore hafter =>
    have hhead : ∀ c ∈ after.toList.head?, isBlank c := by
      intro c hc
      exact hafter c (List.mem_of_mem_head? hc)
    have hnone : fields after = [] := by
      have hwords := words_blanks_append hafter []
      rw [List.append_nil] at hwords
      unfold fields
      rw [hwords]
      rfl
    rw [fields_append hbefore (hwords v List.mem_cons_self) hhead, hnone]
  | @cons before v gap vs rest hbefore hgap hne _ ih =>
    -- the blanks after the word end it, and belong to no other
    have hhead : ∀ c ∈ (gap ++ rest).toList.head?, isBlank c := by
      intro c hc
      have hgapne : gap.toList ≠ [] := fun h => hne (String.toList_eq_nil_iff.mp h)
      rcases List.exists_cons_of_ne_nil hgapne with ⟨b, bs, hb⟩
      rw [String.toList_append, hb, List.cons_append, List.head?_cons] at hc
      apply hgap
      rw [hb, ← Option.mem_some.mp hc]
      exact List.mem_cons_self
    have hskip : fields (gap ++ rest) = fields rest := by
      unfold fields
      rw [String.toList_append, words_blanks_append hgap]
    rw [String.append_assoc, fields_append hbefore (hwords v List.mem_cons_self) hhead, hskip,
      ih fun u hu => hwords u (List.mem_cons_of_mem v hu)]

end Numerals.Text
