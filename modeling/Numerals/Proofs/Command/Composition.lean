import Numerals.Proofs.Command.Input

/-!
# Arguments one after another

Main statement: two lists of arguments, one after the other, ask for what the first one asks for,
followed by what the second one asks for. What is read of the first list makes no difference to how
the second one is read, unless the first list has the argument `--`; then the second one is
positional as it is.
-/

namespace Numerals.Command.Arguments

variable {a : List String} {p : Arguments}

/-- The arguments `q` after the arguments `p`: what they list comes after what `p` lists, and what
they set replaces what `p` sets. An empty path can be set too, so that it is the list of the options
that says whether `q` sets a path. -/
def followedBy (p q : Arguments) : Arguments where
  help := p.help || q.help
  config := if .config ∈ q.seen then q.config else p.config
  style := q.style.or p.style
  precision := q.precision.or p.precision
  radix := q.radix.or p.radix
  seen := p.seen ++ q.seen
  positional := p.positional ++ q.positional

theorem followedBy_empty (p : Arguments) : p.followedBy empty = p := by
  simp [followedBy, empty]

theorem followedBy_set (p q : Arguments) (flag : Flag) (value : String) :
    (p.followedBy q).set flag value = (q.set flag value).map p.followedBy := by
  cases flag with
  | config => simp [set, followedBy, Except.map]
  | style => simp [set, followedBy, Except.map]
  | precision =>
    -- a value that is no integer is refused on both sides
    unfold set
    cases Text.readInt64? value <;> simp [followedBy, Except.map]
  | radix =>
    unfold set
    cases Text.readInt64? value <;> simp [followedBy, Except.map]

theorem commutes_followedBy (p : Arguments) : Commutes (fun _ => True) p.followedBy where
  addPositional := by
    intro q _ args
    refine ⟨trivial, ?_⟩
    unfold addPositional followedBy
    rw [List.append_assoc]
  help := by
    intro q _
    refine ⟨trivial, ?_⟩
    simp only [followedBy, Bool.or_true]
  set := fun _ => p.followedBy_set _
  keeps := fun _ _ => trivial

/-- Arguments are read after `p` as they are read by themselves. -/
theorem parseFrom_eq_followedBy (p : Arguments) (b : List String) :
    parseFrom p b = (parse b).map p.followedBy := by
  have h := p.commutes_followedBy.parseFrom_eq (a := empty) trivial b
  rwa [followedBy_empty] at h

/-- Let the arguments `a` be read as `p`. If they do not have the argument `--`, arguments after
them are refused for the same error as by themselves, or read as what they are by themselves, after
`p`. If they do, arguments after them are positional as they are, and nothing else changes. -/
theorem parse_append_followedBy (h : parse a = .ok p) (b : List String) :
    (terminated a = false → parse (a ++ b) = (parse b).map p.followedBy) ∧
    (terminated a = true → parse (a ++ b) = .ok (p.addPositional b)) := by
  constructor
  · intro hend
    rw [parse_append h hend, parseFrom_eq_followedBy]
  · intro hend
    unfold parse at h ⊢
    rw [parseFrom_append h, if_pos hend]

/-- A second list that takes back a path and has `--` as the value of an option, one that is
refused, and one after the argument `--` itself. -/
theorem parse_append_followedBy_mixed :
    parse ["-2", "--config", "x", "--style=ecma"] =
        .ok ⟨false, "x", some "ecma", none, none, [.config, .style], ["-2"]⟩ ∧
      terminated ["-2", "--config", "x", "--style=ecma"] = false ∧
      parse (["-2", "--config", "x", "--style=ecma"] ++ ["--style", "--", "7", "-h", "--config="]) =
        .ok ⟨true, "", some "--", none, none, [.config, .style, .style, .config], ["-2", "7"]⟩ ∧
      parse (["-2", "--config", "x", "--style=ecma"] ++ ["7", "--radix"]) =
        .error (.missingValue .radix) ∧
      terminated ["-2", "--radix=8", "--"] = true ∧
      parse (["-2", "--radix=8", "--"] ++ ["--radix", "--"]) =
        .ok ⟨false, "", none, none, some 8, [.radix], ["-2", "--radix", "--"]⟩ := by
  have hfirst : parse ["-2", "--config", "x", "--style=ecma"] =
      .ok ⟨false, "x", some "ecma", none, none, [.config, .style], ["-2"]⟩ := by decide +kernel
  have hopen : terminated ["-2", "--config", "x", "--style=ecma"] = false := by decide +kernel
  have hread : parse ["--style", "--", "7", "-h", "--config="] =
      .ok ⟨true, "", some "--", none, none, [.style, .config], ["7"]⟩ := by decide +kernel
  have hrefused : parse ["7", "--radix"] = .error (.missingValue .radix) := by decide +kernel
  have hlast : parse ["-2", "--radix=8", "--"] =
      .ok ⟨false, "", none, none, some 8, [.radix], ["-2"]⟩ := by decide +kernel
  have hclosed : terminated ["-2", "--radix=8", "--"] = true := by decide +kernel
  refine ⟨hfirst, hopen, ?_, ?_, hclosed, (parse_append_followedBy hlast _).2 hclosed⟩
  · rw [(parse_append_followedBy hfirst _).1 hopen, hread]
    rfl
  · rw [(parse_append_followedBy hfirst _).1 hopen, hrefused]
    rfl

end Numerals.Command.Arguments
