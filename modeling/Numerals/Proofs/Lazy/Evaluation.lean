import Numerals.Proofs.Lazy.Transition

/-!
# Evaluations and sessions

A session is a sequence of evaluations in one store, each begun when the one before it has ended. An
evaluation that begins on a stack ends in the first state that has an outcome and that stack again
(`EndsOn`). Until then the frames of the stack stay where they are, so that an evaluation can be cut
at any frame: what is done above the frame comes to an end of its own, and its outcome is what the
frame receives. Main statement: the force of a pending cell ends with the transition in which the
frame of that cell is left, by a value that the cell keeps or by an error.
-/

namespace Numerals.Lazy

variable {K L : List Frame} {st mid next last : State} {id : ℕ}

/-! ## Sessions -/

/-- A moment of a session and the next one: there is a transition, or an evaluation has ended and
another one begins. Between evaluations everything but the cells may change. -/
inductive Next : State → State → Prop where
  | step {st next : State} (h : Lazy.step st = some next) : Next st next
  | begin {st : State} {o : Outcome} (h : st.outcome? = some o) (s : Store)
      (hs : s.cells = st.store.cells) (c : Control) : Next st ⟨s, c, []⟩

/-- A moment of a session and that moment or a later one. -/
abbrev Later : State → State → Prop :=
  Relation.ReflTransGen Next

theorem run_later (n : ℕ) (st : State) : Later st (run n st) := by
  induction n generalizing st with
  | zero => exact .refl
  | succ n ih =>
    rw [run]
    split
    · rename_i next hstep
      exact .head (.step hstep) (ih next)
    · exact .refl

theorem stack_of_outcome? {o : Outcome} (h : st.outcome? = some o) : st.stack = [] := by
  obtain ⟨s, control, stack⟩ := st
  cases stack with
  | nil => rfl
  | cons f K => cases control <;> cases h

theorem isOutcome_of_outcome? {o : Outcome} (h : st.outcome? = some o) :
    st.control.isOutcome = true := by
  obtain ⟨s, control, stack⟩ := st
  cases control with
  | value | fail | raise => rfl
  | _ => cases h

/-- There is no transition from an outcome with nothing left on the stack. -/
theorem step_eq_none (hstack : st.stack = []) (ho : st.control.isOutcome = true) :
    step st = none := by
  obtain ⟨s, control, stack⟩ := st
  cases hstack
  cases control with
  | value | fail | raise => rfl
  | _ => cases ho

/-- While an evaluation goes on, no other one begins. -/
theorem Next.eq_of_step {next' : State} (h : Next st next') (hstep : Lazy.step st = some next) :
    next' = next := by
  cases h with
  | step hstep' => exact Option.some.inj (hstep'.symm.trans hstep)
  | begin ho s hs c =>
    rw [step_eq_none (stack_of_outcome? ho) (isOutcome_of_outcome? ho)] at hstep
    cases hstep

/-! ## Evaluations -/

/-- `last` is the first state from `st` on that has an outcome and the stack `K`. -/
inductive EndsOn (K : List Frame) : State → State → Prop where
  | done {st : State} (hstack : st.stack = K) (ho : st.control.isOutcome = true) : EndsOn K st st
  | step {st next last : State} (hgo : ¬(st.stack = K ∧ st.control.isOutcome = true))
      (hstep : Lazy.step st = some next) (hrest : EndsOn K next last) : EndsOn K st last

namespace EndsOn

theorem stack_eq (h : EndsOn K st last) : last.stack = K := by
  induction h with
  | done hstack _ => exact hstack
  | step _ _ _ ih => exact ih

theorem isOutcome (h : EndsOn K st last) : last.control.isOutcome = true := by
  induction h with
  | done _ ho => exact ho
  | step _ _ _ ih => exact ih

theorem later (h : EndsOn K st last) : Later st last := by
  induction h with
  | done _ _ => exact .refl
  | step _ hstep _ ih => exact .head (.step hstep) ih

theorem eq_of_outcome (h : EndsOn K st last) (hstack : st.stack = K)
    (ho : st.control.isOutcome = true) : last = st := by
  cases h with
  | done _ _ => rfl
  | step hgo _ _ => exact absurd ⟨hstack, ho⟩ hgo

/-- What comes after a state that is not the end itself. -/
theorem tail (h : EndsOn K st last) (hgo : ¬(st.stack = K ∧ st.control.isOutcome = true)) :
    ∃ next, Lazy.step st = some next ∧ EndsOn K next last := by
  cases h with
  | done hstack ho => exact absurd ⟨hstack, ho⟩ hgo
  | step _ hstep hrest => exact ⟨_, hstep, hrest⟩

/-- What is done above a longer stack comes to an end of its own first. -/
theorem split (h : EndsOn K st last) (hL : L <:+ st.stack) (hK : K <:+ L) :
    ∃ mid, EndsOn L st mid ∧ EndsOn K mid last := by
  induction h with
  | done hstack ho =>
    -- nothing is left between the two stacks
    have heq : L = K := (hstack ▸ hL).eq_of_length_le hK.length_le
    exact ⟨_, .done (hstack.trans heq.symm) ho, .done hstack ho⟩
  | @step st next last hgo hstep hrest ih =>
    by_cases hend : st.stack = L ∧ st.control.isOutcome = true
    · exact ⟨st, .done hend.1 hend.2, .step hgo hstep hrest⟩
    · -- the transition keeps `L`, so the rest of the evaluation can be cut there
      obtain ⟨mid, habove, hbelow⟩ := ih (step_suffix hstep hL hend)
      exact ⟨mid, .step hend hstep habove, hbelow⟩

end EndsOn

/-- An evaluation with a frame above `K` has not ended on `K`. -/
theorem cons_append_ne (f : Frame) (A K : List Frame) : f :: (A ++ K) ≠ K := by
  intro h
  have hnil : f :: A = [] := List.append_left_eq_self.mp h
  cases hnil

/-- An outermost evaluation that `run` brings to an outcome ends there. -/
theorem run_endsOn {o : Outcome} {n : ℕ} (h : (run n st).outcome? = some o) :
    EndsOn [] st (run n st) := by
  induction n generalizing st with
  | zero => exact .done (stack_of_outcome? h) (isOutcome_of_outcome? h)
  | succ n ih =>
    rw [run] at h ⊢
    split at h
    · rename_i next hstep
      refine .step ?_ hstep (ih h)
      rintro ⟨hstack, ho⟩
      rw [step_eq_none hstack ho] at hstep
      cases hstep
    · exact .done (stack_of_outcome? h) (isOutcome_of_outcome? h)

/-! ## The end of a force -/

/-- The transition from `mid` to `last` leaves the frame of the cell `id` for good. -/
inductive Leaves (id : ℕ) (K : List Frame) (mid last : State) : Prop where
  | kept (v : Value) (hcontrol : mid.control = .value v)
      (h : last = ⟨mid.store.setCell id (.evaluated v), .value v, K⟩)
  | abandoned (hcontrol : mid.control.isFailure = true)
      (h : last = ⟨mid.store.release id, mid.control, K⟩)

/-- An outcome that meets the frame of a cell: either the frame is left, or the outcome is a further
cell, which is forced with the cell still waiting. -/
theorem EndsOn.leaves_or_chain {f : Frame} (h : EndsOn K mid last) (hstack : mid.stack = f :: K)
    (hf : f.forced? = some id) (ho : mid.control.isOutcome = true) :
    Leaves id K mid last ∨
    ∃ inner, f = .compute id ∧ mid.control = .value (.cell inner) ∧
      EndsOn K ⟨mid.store, .force (.cell inner), .settle id :: K⟩ last := by
  obtain ⟨next, hstep, hrest⟩ := h.tail (by simp [hstack])
  cases step_effect hstep with
  | work hcontrol _ _ => simp [ho] at hcontrol
  | answer _ _ hcontrol _ _ _ => simp [hcontrol, Control.isOutcome] at ho
  | start _ _ hcontrol _ _ => simp [hcontrol, Control.isOutcome] at ho
  | pass g L hstack' hg _ _ =>
    cases hstack.symm.trans hstack'
    simp [hf] at hg
  | chain id' inner L hcontrol hstack' hnext =>
    cases hstack.symm.trans hstack'
    cases hf
    subst hnext
    exact .inr ⟨inner, rfl, hcontrol, hrest⟩
  | complete id' v g L hcontrol hstack' hg _ hnext =>
    cases hstack.symm.trans hstack'
    cases hf.symm.trans hg
    subst hnext
    exact .inl (.kept v hcontrol (hrest.eq_of_outcome rfl rfl))
  | abandon id' g L hcontrol hstack' hg hnext =>
    cases hstack.symm.trans hstack'
    cases hf.symm.trans hg
    subst hnext
    exact .inl (.abandoned hcontrol (hrest.eq_of_outcome rfl ho))

/-- The frame of a cell that waits for a further cell is left once that cell is forced. -/
theorem EndsOn.settle_leaves (h : EndsOn K st last) (hsuffix : .settle id :: K <:+ st.stack) :
    ∃ mid, EndsOn (.settle id :: K) st mid ∧ EndsOn K mid last ∧ Leaves id K mid last := by
  obtain ⟨mid, habove, hbelow⟩ := h.split hsuffix (List.suffix_cons _ _)
  refine ⟨mid, habove, hbelow, ?_⟩
  rcases hbelow.leaves_or_chain habove.stack_eq rfl habove.isOutcome with hleaves | ⟨_, hf, _⟩
  · exact hleaves
  · cases hf

/-- The force of a pending cell ends when the frame of the cell is left. -/
theorem EndsOn.force_leaves {s : Store} {comp : Computation}
    (h : EndsOn K ⟨s, .force (.cell id), K⟩ last) (hcell : s.cells[id]? = some (.pending comp)) :
    ∃ mid, Later ⟨s, .force (.cell id), K⟩ mid ∧ id ∈ mid.forced ∧ Leaves id K mid last := by
  obtain ⟨next, hstep, hrest⟩ := h.tail (by simp [Control.isOutcome])
  have hnext : next = start (s.setCell id (.running comp)) K id comp :=
    Option.some.inj (hstep.symm.trans (step_force_pending hcell))
  have hsuffix : .compute id :: K <:+ next.stack := by
    rw [hnext]
    exact compute_suffix_start _ K id comp
  obtain ⟨mid, habove, hbelow⟩ := hrest.split hsuffix (List.suffix_cons _ _)
  have hmid : Later ⟨s, .force (.cell id), K⟩ mid := .head (.step hstep) habove.later
  rcases hbelow.leaves_or_chain habove.stack_eq rfl habove.isOutcome with
    hleaves | ⟨inner, -, hcontrol, hinner⟩
  · refine ⟨mid, hmid, ?_, hleaves⟩
    simp [forced_of_frame habove.stack_eq rfl]
  · -- the computation yielded a further cell, and the frame is left after the force of that one
    obtain ⟨mid', habove', -, hleaves⟩ := hinner.settle_leaves List.suffix_rfl
    refine ⟨mid', hmid.trans ?_, ?_, hleaves⟩
    · refine .head (.step ?_) habove'.later
      obtain ⟨t, control, stack⟩ := mid
      cases habove.stack_eq
      cases hcontrol
      rfl
    · simp [forced_of_frame habove'.stack_eq rfl]

end Numerals.Lazy
