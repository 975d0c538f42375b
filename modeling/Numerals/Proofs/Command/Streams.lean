import Numerals.Command.Values

/-!
# Computations on unlimited streams

What the computations of commands yield and leave if the two output streams accept all writes. A
message ends a command with the exit code that it is given for, an error with that of its category,
and lines are written up to the first value that has none.
-/

namespace Numerals.Command

variable {α β : Type} {t : Traces}

/-- Both output streams accept all writes. -/
structure Traces.Unlimited (t : Traces) : Prop where
  out : t.out.room = none
  err : t.err.room = none

/-- The traces after `s` is written on the standard output. -/
def Traces.addOut (t : Traces) (s : String) : Traces :=
  { t with out := ⟨t.out.text ++ s, none⟩ }

/-- The traces after `s` is written on the standard error output. -/
def Traces.addErr (t : Traces) (s : String) : Traces :=
  { t with err := ⟨t.err.text ++ s, none⟩ }

theorem Traces.unlimited_empty : Traces.empty.Unlimited :=
  ⟨rfl, rfl⟩

theorem Traces.Unlimited.addOut (h : t.Unlimited) (s : String) : (t.addOut s).Unlimited :=
  ⟨rfl, h.err⟩

theorem Traces.Unlimited.addErr (h : t.Unlimited) (s : String) : (t.addErr s).Unlimited :=
  ⟨h.out, rfl⟩

theorem Traces.Unlimited.addOut_empty (h : t.Unlimited) : t.addOut "" = t := by
  unfold Traces.addOut
  rw [String.append_empty, ← h.out]

theorem Traces.Unlimited.addErr_empty (h : t.Unlimited) : t.addErr "" = t := by
  unfold Traces.addErr
  rw [String.append_empty, ← h.err]

theorem Traces.addOut_addOut (t : Traces) (s s' : String) :
    (t.addOut s).addOut s' = t.addOut (s ++ s') := by
  unfold Traces.addOut
  rw [String.append_assoc]

/-! ## Outcomes -/

theorem outcome_bind {r : Run α} {f : α → Run β} {a : α} {t' : Traces}
    (h : r.outcome t = (.ok a, t')) : (r >>= f).outcome t = (f a).outcome t' := by
  unfold Run.outcome at h ⊢
  rw [ExceptT.run_bind, StateT.run_bind, h]
  rfl

theorem outcome_get (t : Traces) : Run.outcome (get : Run Traces) t = (.ok t, t) :=
  rfl

theorem outcome_writeOut (h : t.Unlimited) (s : String) :
    (writeOut s).outcome t = (.ok true, t.addOut s) := by
  have hwrite : t.out.write s = some ⟨t.out.text ++ s, none⟩ := by
    unfold Stream.write
    rw [h.out]
  unfold writeOut
  rw [outcome_bind (outcome_get t), hwrite]
  rfl

theorem outcome_writeErr (h : t.Unlimited) (s : String) :
    (writeErr s).outcome t = (.ok true, t.addErr s) := by
  have hwrite : t.err.write s = some ⟨t.err.text ++ s, none⟩ := by
    unfold Stream.write
    rw [h.err]
  unfold writeErr
  rw [outcome_bind (outcome_get t), hwrite]
  rfl

theorem outcome_fail (h : t.Unlimited) (code : Nat) (message : String) :
    (fail code message).outcome t = (.ok code, t.addErr message) := by
  unfold fail
  rw [outcome_bind (outcome_writeErr h message)]
  rfl

theorem outcome_report (h : t.Unlimited) (e : Error) :
    (report e).outcome t = (.ok e.exitCode, t.addErr e.report) :=
  outcome_fail h e.exitCode e.report

theorem outcome_help (h : t.Unlimited) (code : Nat) (lines : List String) :
    (help code lines).outcome t =
      (.ok code, lines.foldl (fun t line => t.addErr (line ++ "\n")) t) := by
  induction lines generalizing t with
  | nil => rfl
  | cons line lines ih =>
    rw [help, outcome_bind (outcome_writeErr h _)]
    exact ih (h.addErr _)

/-! ## Lines of values -/

theorem outcome_eachLine_cons (h : t.Unlimited) {line : String → Result String} {v text : String}
    (hv : line v = .ok text) (vs : List String) :
    (eachLine line (v :: vs)).outcome t = (eachLine line vs).outcome (t.addOut text) := by
  rw [eachLine, hv]
  exact outcome_bind (outcome_writeOut h text)

/-- All values have lines, or the command ends with the failure of the first one that has none. -/
theorem outcome_eachLine (h : t.Unlimited) (line : String → Result String) (vs : List String) :
    ∃ t' : Traces, t'.Unlimited ∧
      ((∀ v ∈ vs, ∃ text, line v = .ok text) ∧
        (eachLine line vs).outcome t = (.ok exitSuccess, t') ∨
      ∃ v ∈ vs, ∃ e, line v = .error e ∧
        (eachLine line vs).outcome t = (conclude (e.map .fault)).outcome t') := by
  induction vs generalizing t with
  | nil => exact ⟨t, h, .inl ⟨by simp, rfl⟩⟩
  | cons v vs ih =>
    cases hv : line v with
    | error e =>
      refine ⟨t, h, .inr ⟨v, List.mem_cons_self, e, hv, ?_⟩⟩
      rw [eachLine, hv]
    | ok text =>
      rw [outcome_eachLine_cons h hv]
      obtain ⟨t', ht', ⟨hall, hout⟩ | ⟨w, hw, e, he, hout⟩⟩ := ih (h.addOut text)
      · refine ⟨t', ht', .inl ⟨?_, hout⟩⟩
        rintro w (_ | ⟨_, hw⟩)
        · exact ⟨text, hv⟩
        · exact hall w hw
      · exact ⟨t', ht', .inr ⟨w, List.mem_cons_of_mem v hw, e, he, hout⟩⟩

end Numerals.Command
