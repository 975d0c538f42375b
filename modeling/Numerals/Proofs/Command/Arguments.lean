import Numerals.Command.Arguments
import Mathlib.Data.List.TakeDrop

/-!
# Arguments that are numbers

A number is a positional argument wherever an option could stand, even with a minus sign, and the
other arguments are read as if it were not there. The exception are numbers below zero that
overflow: whether an argument is a number is asked without regard to these, so that they are taken
for options that are not known.
-/

namespace Numerals

/-! ## Texts that begin with a minus sign -/

namespace Literal

theorem parse?_eq_none {c : Char} (hc : c = '-' ∨ c = 'h') (cs : List Char) :
    parse? ('-' :: c :: cs) = none := by
  have hspecial : special? ('-' :: c :: cs) = none := by
    rcases hc with rfl | rfl <;>
      simp [special?, Text.splitSign, isWord]
  have hnumber (ds : List Char) : number? ('-' :: c :: ds) = none := by
    rcases hc with rfl | rfl <;> rfl
  have hfilter : ('-' :: c :: cs).filter (· ≠ '_') = '-' :: c :: cs.filter (· ≠ '_') := by
    rcases hc with rfl | rfl <;> rfl
  unfold parse?
  rw [hspecial, hfilter, hnumber]
  simp

variable {negative : Bool} {m b : Nat} {e : Int} {cs : List Char}

theorem special?_ne_number (cs : List Char) :
    special? cs ≠ some (.number negative m b e) := by
  unfold special?
  dsimp only
  split_ifs <;> simp

theorem number_of_decimal? {sign : Bool} (h : decimal? sign cs = some (.number negative m b e)) :
    negative = sign ∧ b = 10 := by
  obtain ⟨⟨whole, part, rest⟩, -, h⟩ := Option.bind_eq_some_iff.mp h
  dsimp only at h
  split_ifs at h
  · cases h
    exact ⟨rfl, rfl⟩
  · obtain ⟨exponent, -, h⟩ := Option.bind_eq_some_iff.mp h
    cases h
    exact ⟨rfl, rfl⟩

theorem number_of_hexadecimal? {sign : Bool}
    (h : hexadecimal? sign cs = some (.number negative m b e)) : negative = sign ∧ b = 2 := by
  obtain ⟨⟨whole, part, rest⟩, -, h⟩ := Option.bind_eq_some_iff.mp h
  obtain ⟨exponent, -, h⟩ := Option.bind_eq_some_iff.mp h
  cases h
  exact ⟨rfl, rfl⟩

theorem negative_of_parse? (h : parse? ('-' :: cs) = some (.number negative m b e)) :
    negative = true := by
  unfold parse? at h
  split at h
  · rename_i l hspecial
    exact absurd (hspecial.trans h) (special?_ne_number _)
  · split_ifs at h
    rw [List.filter_cons_of_pos (by decide), number?, Text.splitSign] at h
    dsimp only at h
    split at h
    · exact (number_of_hexadecimal? h).1
    · exact (number_of_decimal? h).1

theorem nearest_of_overflow {x : Binary64} {l : Literal} (h : l.nearest = (x, true)) :
    ∃ negative m b e, l = .number negative m b e ∧ x = .ofValue (.infinite negative) := by
  cases l with
  | nan => cases h
  | infinite negative => cases h
  | number negative m b e =>
    refine ⟨negative, m, b, e, rfl, ?_⟩
    unfold nearest FloatFormat.encodeRatio at h
    dsimp only at h
    split_ifs at h
    · cases h
      rfl
    · cases h

end Literal

namespace Command

variable {s : String} {x : Binary64}

/-- The text is a number with a minus sign that overflows. -/
def IsNegativeOverflow (s : String) : Prop :=
  s.toList.head? = some '-' ∧ ∃ x, Binary64.ofText? s = some (x, true)

theorem exists_ofText? (h : Binary64.ofText s = .ok x) :
    ∃ overflow, Binary64.ofText? s = some (x, overflow) := by
  unfold Binary64.ofText at h
  split at h
  · rename_i r hr
    cases h
    exact ⟨r.2, hr⟩
  · cases h

theorem IsNegativeOverflow.eq_infinite (hs : IsNegativeOverflow s) (h : Binary64.ofText s = .ok x) :
    x = .ofValue (.infinite true) := by
  obtain ⟨hminus, y, htext⟩ := hs
  have hxy : x = y := by
    unfold Binary64.ofText at h
    rw [htext] at h
    cases h
    rfl
  obtain ⟨cs, hcs⟩ := List.head?_eq_some_iff.mp hminus
  obtain ⟨l, hl, hnearest⟩ := Option.map_eq_some_iff.mp htext
  obtain ⟨negative, m, b, e, rfl, hy⟩ := Literal.nearest_of_overflow hnearest
  rw [hcs] at hl
  rw [hxy, hy, Literal.negative_of_parse? hl]

/-! ## One argument -/

theorem Argument.ofText_eq_positional (h : Binary64.ofText s = .ok x)
    (hs : ¬IsNegativeOverflow s) : Argument.ofText s = .positional := by
  obtain ⟨overflow, htext⟩ := exists_ofText? h
  unfold Argument.ofText
  refine if_pos ?_
  by_cases hminus : s.toList.head? = some '-'
  · cases overflow with
    | true => exact absurd ⟨hminus, x, htext⟩ hs
    | false => simp [Binary64.isNumeral, htext]
  · simp [hminus]

theorem splitValue_fst (cs : List Char) : (splitValue cs).1 = cs.takeWhile (· ≠ '=') := by
  unfold splitValue
  rw [List.span_eq_takeWhile_dropWhile]
  split
  · rename_i name heq
    rw [← (Prod.mk.inj heq).1]
  · rename_i name c value heq
    rw [← (Prod.mk.inj heq).1]

/-- A text that begins like the name of an option. -/
def BeginsOption (cs : List Char) : Prop :=
  ∃ c rest, cs = '-' :: c :: rest ∧ (c = '-' ∨ c = 'h')

theorem beginsOption_flag (f : Flag) : BeginsOption f.name.toList := by
  cases f with
  | config => exact ⟨'-', "config".toList, rfl, .inl rfl⟩
  | style => exact ⟨'-', "style".toList, rfl, .inl rfl⟩
  | precision => exact ⟨'-', "precision".toList, rfl, .inl rfl⟩
  | radix => exact ⟨'-', "radix".toList, rfl, .inl rfl⟩

theorem not_beginsOption {r : Binary64 × Bool} (h : Binary64.ofText? s = some r) :
    ¬BeginsOption s.toList := by
  rintro ⟨c, rest, hs, hc⟩
  unfold Binary64.ofText? at h
  rw [hs, Literal.parse?_eq_none hc] at h
  cases h

/-- What stands before an equals sign begins like the whole argument. -/
theorem BeginsOption.of_splitValue {cs : List Char} (h : BeginsOption (splitValue cs).1) :
    BeginsOption cs := by
  obtain ⟨c, rest, hname, hc⟩ := h
  rw [splitValue_fst] at hname
  obtain ⟨more, hmore⟩ := hname ▸ List.takeWhile_prefix (· ≠ '=')
  exact ⟨c, rest ++ more, hmore.symm, hc⟩

theorem Argument.ofText_eq_unknown (hs : IsNegativeOverflow s) : Argument.ofText s = .unknown := by
  obtain ⟨hminus, x, htext⟩ := hs
  -- no name of an option begins like a number
  have hname {n : String} (hn : BeginsOption n.toList) :
      String.ofList (splitValue s.toList).1 ≠ n := by
    rintro rfl
    rw [String.toList_ofList] at hn
    exact not_beginsOption htext hn.of_splitValue
  have hlone : s ≠ "-" := by
    rintro rfl
    cases htext
  have hflag : Flag.ofName? (String.ofList (splitValue s.toList).1) = none := by
    unfold Flag.ofName?
    rw [List.find?_eq_none]
    intro f _
    simpa using (hname (beginsOption_flag f)).symm
  unfold Argument.ofText
  rw [if_neg (by simp [hminus, hlone, Binary64.isNumeral, htext])]
  have hhelp := hname (n := "--help") ⟨'-', _, rfl, .inl rfl⟩
  have hshort := hname (n := "-h") ⟨'h', _, rfl, .inr rfl⟩
  have hend := hname (n := "--") ⟨'-', _, rfl, .inl rfl⟩
  simp [hhelp, hshort, hend, hflag]

/-! ## Lists of arguments -/

namespace Arguments

variable {a b : Arguments} {p q pre rest : List String}

/-- The arguments with a further positional one before the `i`-th. -/
def insertPositional (a : Arguments) (i : Nat) (s : String) : Arguments :=
  { a with positional := a.positional.insertIdx i s }

/-- Whether the list has an argument that makes all further ones positional. -/
def terminated : List String → Bool
  | [] => false
  | arg :: rest =>
    match Argument.ofText arg with
    | .terminator => true
    | .flag _ none =>
      match rest with
      | [] => false
      | _ :: rest => terminated rest
    | _ => terminated rest

theorem terminated_cons (arg : String) (rest : List String) :
    terminated (arg :: rest) =
      match Argument.ofText arg with
      | .terminator => true
      | .flag _ none => terminated rest.tail
      | _ => terminated rest := by
  rw [terminated.eq_def]
  dsimp only
  split
  · rfl
  · cases rest <;> rfl
  · rfl

theorem insertIdx_append (p q : List String) (s : String) :
    (p ++ q).insertIdx p.length s = p ++ s :: q := by
  induction p with
  | nil => rfl
  | cons c p ih => exact congrArg (c :: ·) ih

theorem set_positional (a : Arguments) (flag : Flag) (value : String) (ps : List String) :
    ({ a with positional := ps }).set flag value =
      (a.set flag value).map fun b => { b with positional := ps } := by
  cases flag with
  | config => rfl
  | style => rfl
  | precision =>
    unfold set
    cases Text.readInt64? value <;> rfl
  | radix =>
    unfold set
    cases Text.readInt64? value <;> rfl

theorem positional_of_set {flag : Flag} {value : String} (h : a.set flag value = .ok b) :
    b.positional = a.positional := by
  cases flag with
  | config =>
    cases h
    rfl
  | style =>
    cases h
    rfl
  | precision =>
    unfold set at h
    cases hread : Text.readInt64? value <;> rw [hread] at h <;> cases h
    rfl
  | radix =>
    unfold set at h
    cases hread : Text.readInt64? value <;> rw [hread] at h <;> cases h
    rfl

/-- What is done by `F` to the arguments that are read so far can as well be done after further ones
are read. This is said of arguments with the property `I`, which reading keeps. -/
structure Commutes (I : Arguments → Prop) (F : Arguments → Arguments) : Prop where
  addPositional : ∀ {a}, I a → ∀ args,
    I (a.addPositional args) ∧ (F a).addPositional args = F (a.addPositional args)
  help : ∀ {a}, I a →
    I { a with help := true } ∧ { F a with help := true } = F { a with help := true }
  set : ∀ {a}, I a → ∀ flag value, (F a).set flag value = (a.set flag value).map F
  keeps : ∀ {a b flag value}, I a → a.set flag value = .ok b → I b

theorem Commutes.parseFrom_eq {I : Arguments → Prop} {F : Arguments → Arguments}
    (h : Commutes I F) (ha : I a) (rest : List String) :
    parseFrom (F a) rest = (parseFrom a rest).map F := by
  fun_induction parseFrom a rest with
  | case1 a => rfl
  | case2 a arg rest harg ih =>
    -- a positional argument
    rcases h.addPositional ha [arg] with ⟨hI, hF⟩
    rw [parseFrom, harg]
    dsimp only
    rw [hF]
    exact ih hI
  | case3 a arg rest harg =>
    -- the argument `--`, after which `F` meets all that is left at once
    rw [parseFrom, harg]
    exact congrArg Except.ok (h.addPositional ha rest).2
  | case4 a arg rest harg ih =>
    rcases h.help ha with ⟨hI, hF⟩
    rw [parseFrom, harg]
    dsimp only
    rw [hF]
    exact ih hI
  | case5 a arg rest flag value harg b hset ih =>
    -- an option with its value in the same argument
    rw [parseFrom, harg]
    dsimp only
    rw [h.set ha, hset]
    exact ih (h.keeps ha hset)
  | case6 a arg rest flag value harg e hset =>
    rw [parseFrom, harg]
    dsimp only
    rw [h.set ha, hset]
    rfl
  | case7 a arg flag harg =>
    rw [parseFrom, harg]
    rfl
  | case8 a arg flag harg value rest b hset ih =>
    -- an option that takes the next argument, whatever it looks like
    rw [parseFrom, harg]
    dsimp only
    rw [h.set ha, hset]
    exact ih (h.keeps ha hset)
  | case9 a arg flag harg value rest e hset =>
    rw [parseFrom, harg]
    dsimp only
    rw [h.set ha, hset]
    rfl
  | case10 a arg rest harg =>
    rw [parseFrom, harg]
    rfl

/-- Arguments that are read later come after all those among which one is inserted. -/
theorem commutes_insertPositional (p : List String) (s : String) :
    Commutes (fun a => ∃ q, a.positional = p ++ q) (·.insertPositional p.length s) where
  addPositional := by
    rintro a ⟨q, hq⟩ args
    constructor
    · exact ⟨q ++ args, by simp [addPositional, hq]⟩
    · unfold addPositional insertPositional
      rw [hq, insertIdx_append, List.append_assoc p q, insertIdx_append]
      simp
  help := fun ha => ⟨ha, rfl⟩
  set := by
    intro a _ flag value
    unfold insertPositional
    rw [set_positional]
    cases hset : a.set flag value with
    | error e => rfl
    | ok b =>
      simp only [Except.map]
      rw [positional_of_set hset]
  keeps := by
    rintro a b flag value ⟨q, hq⟩ hset
    exact ⟨q, (positional_of_set hset).trans hq⟩

/-- A positional argument that was read before makes no difference to those read after it. -/
theorem parseFrom_insert (s : String) (ha : a.positional = p ++ q) :
    parseFrom { a with positional := p ++ s :: q } rest =
      (parseFrom a rest).map (·.insertPositional p.length s) := by
  rw [← (commutes_insertPositional p s).parseFrom_eq ⟨q, ha⟩, insertPositional, ha,
    insertIdx_append]

/-- What follows arguments that are read is read from there, or taken as it is. -/
theorem parseFrom_append (h : parseFrom a pre = .ok b) (rest : List String) :
    parseFrom a (pre ++ rest) =
      if terminated pre then .ok (b.addPositional rest) else parseFrom b rest := by
  fun_induction parseFrom a pre with
  | case1 a =>
    cases h
    rfl
  | case2 a arg pre harg ih =>
    rw [List.cons_append, parseFrom, terminated_cons, harg]
    exact ih h
  | case3 a arg pre harg =>
    cases h
    rw [List.cons_append, parseFrom, terminated_cons, harg]
    simp [addPositional]
  | case4 a arg pre harg ih =>
    rw [List.cons_append, parseFrom, terminated_cons, harg]
    exact ih h
  | case5 a arg pre flag value harg b hset ih =>
    rw [List.cons_append, parseFrom, terminated_cons, harg]
    dsimp only
    rw [hset]
    exact ih h
  | case6 => cases h
  | case7 => cases h
  | case8 a arg flag harg value pre b hset ih =>
    rw [List.cons_append, parseFrom, terminated_cons, harg]
    dsimp only [List.cons_append]
    rw [hset]
    exact ih h
  | case9 => cases h
  | case10 => cases h

/-- A positional argument among others. -/
theorem parse_insert (h : parse pre = .ok a) (hs : Argument.ofText s = .positional) :
    parse (pre ++ s :: rest) =
      (parse (pre ++ rest)).map (·.insertPositional a.positional.length s) := by
  unfold parse at h ⊢
  -- both lists are read alike up to `s`
  rw [parseFrom_append h, parseFrom_append h]
  have hsplit : a.positional = a.positional ++ [] := (List.append_nil _).symm
  split_ifs with hend
  · simp [addPositional, Except.map, insertPositional, insertIdx_append]
  · rw [← parseFrom_insert s hsplit, parseFrom, hs]
    rfl

theorem parse_unknown (h : parse pre = .ok a) (hend : terminated pre = false)
    (hs : Argument.ofText s = .unknown) : parse (pre ++ s :: rest) = .error (.unknown s) := by
  unfold parse at h ⊢
  rw [parseFrom_append h, if_neg (by simp [hend]), parseFrom, hs]

end Arguments

end Command

end Numerals
