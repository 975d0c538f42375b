import Numerals.Proofs.Lazy.Discipline

/-!
# Values that are kept

A cell that is evaluated has no frame on the stack, and only its own frame could change it. So it
keeps its value for the rest of the session, and no force starts its computation again. Main
statement: a successful force leaves its cell evaluated with the value it returns, and if
computations yield further cells, all cells of the chain with the same value.
-/

namespace Numerals.Lazy

variable {s : Store} {st mid last later : State} {id : ℕ} {v : Value} {K : List Frame}

/-- The transition from `st` starts the computation of the cell `id`. -/
def Starts (id : ℕ) (st : State) : Prop :=
  ∃ next comp, step st = some next ∧ st.store.cells[id]? = some (.pending comp) ∧
    next.store.cells[id]? = some (.running comp)

/-- The transition from `st` completes the computation of the cell `id`, which has a value from then
on. If the computation yields a further cell, this is when the value of that cell is known. -/
def Completes (id : ℕ) (st : State) : Prop :=
  ∃ next comp v, step st = some next ∧ st.store.cells[id]? = some (.running comp) ∧
    next.store.cells[id]? = some (.evaluated v)

theorem Disciplined.evaluated_of_later (hd : Disciplined st)
    (hcell : st.store.cells[id]? = some (.evaluated v)) (h : Later st later) :
    later.store.cells[id]? = some (.evaluated v) := by
  obtain ⟨c, hc, rfl⟩ := hd.evolves h hcell
  exact hc

theorem not_starts_of_evaluated (hcell : st.store.cells[id]? = some (.evaluated v)) :
    ¬Starts id st := by
  rintro ⟨next, comp, -, hpending, -⟩
  cases hcell.symm.trans hpending

/-- No computation completes twice. -/
theorem Disciplined.completes_once (hd : Disciplined st) (hst : Completes id st)
    (h : Relation.TransGen Next st later) : ¬Completes id later := by
  rintro ⟨-, comp', -, -, hrunning, -⟩
  obtain ⟨next, comp, v, hstep, -, hevaluated⟩ := hst
  obtain ⟨next', hnext, hlater⟩ := Relation.TransGen.head'_iff.mp h
  cases hnext.eq_of_step hstep
  have hkept := (hd.step hstep).evaluated_of_later hevaluated hlater
  cases hkept.symm.trans hrunning

/-! ## Successful forces -/

theorem Leaves.evaluated (h : Leaves id K mid last) (hd : Disciplined mid)
    (hid : id ∈ mid.forced) (hv : last.control = .value v) :
    mid.control = .value v ∧ last.store.cells[id]? = some (.evaluated v) := by
  cases h with
  | kept w hcontrol hlast =>
    subst hlast
    cases hv
    obtain ⟨comp, hrunning⟩ := (hd.running_iff id).mpr hid
    exact ⟨hcontrol, cells_setCell_self hrunning _⟩
  | abandoned hcontrol hlast =>
    subst hlast
    change mid.control = _ at hv
    simp [hv, Control.isFailure] at hcontrol

/-- What a successful force returns is what the cell keeps. -/
theorem Disciplined.evaluated_of_success (hd : Disciplined st)
    (hcontrol : st.control = .force (.cell id)) (h : EndsOn st.stack st last)
    (hv : last.control = .value v) : last.store.cells[id]? = some (.evaluated v) := by
  obtain ⟨s, control, K⟩ := st
  cases hcontrol
  -- where the force takes one transition, its outcome is read off
  have hone {t : Store} {c : Control} (hc : c.isOutcome = true)
      (hstep : Lazy.step ⟨s, .force (.cell id), K⟩ = some ⟨t, c, K⟩) : last = ⟨t, c, K⟩ := by
    obtain ⟨next, hstep', hrest⟩ := h.tail (by simp [Control.isOutcome])
    cases hstep.symm.trans hstep'
    exact hrest.eq_of_outcome rfl hc
  cases hcell : s.cells[id]? with
  | none =>
    cases hone rfl (step_force_missing hcell)
    cases hv
  | some c =>
    cases c with
    | evaluated w =>
      cases hone rfl (step_force_evaluated hcell)
      cases hv
      exact hcell
    | running comp =>
      cases hone rfl (step_force_running hcell)
      cases hv
    | pending comp =>
      obtain ⟨mid, hlater, hid, hleaves⟩ := h.force_leaves hcell
      exact (hleaves.evaluated (hd.later hlater) hid hv).2

/-- Cells that wait for each other, the first one for what is done above them, all keep the value
that comes from there. -/
theorem Disciplined.evaluated_of_chain (hd : Disciplined st) {ids : List ℕ}
    (hstack : st.stack = ids.map .settle ++ K) (h : EndsOn K st last)
    (hv : last.control = .value v) :
    ∃ mid, EndsOn (ids.map .settle ++ K) st mid ∧ mid.control = .value v ∧ Later mid last ∧
      ∀ j ∈ ids, last.store.cells[j]? = some (.evaluated v) := by
  induction ids generalizing st with
  | nil => exact ⟨last, h, hv, .refl, by simp⟩
  | cons i ids ih =>
    -- the other cells wait for what the first one keeps
    obtain ⟨mid', habove, hbelow⟩ :=
      h.split (L := ids.map .settle ++ K) ⟨[.settle i], hstack.symm⟩ (List.suffix_append _ _)
    have hd' := hd.later habove.later
    obtain ⟨mid'', hsame, hv', -, hids⟩ := ih hd' habove.stack_eq hbelow
    cases hsame.eq_of_outcome habove.stack_eq habove.isOutcome
    obtain ⟨mid, hmid, hrest, hleaves⟩ := habove.settle_leaves ⟨[], hstack.symm⟩
    obtain ⟨hcontrol, hi⟩ := hleaves.evaluated (hd.later hmid.later)
      (by simp [forced_of_frame hmid.stack_eq rfl]) hv'
    refine ⟨mid, hmid, hcontrol, hrest.later.trans hbelow.later, ?_⟩
    intro j hj
    rcases List.mem_cons.mp hj with rfl | hj
    · exact hd'.evaluated_of_later hi hbelow.later
    · exact hids j hj

/-- In a session that begins with no cell running:
* a cell that is evaluated at some moment is evaluated with the same value from then on, whatever
  succeeds or fails; its computation is not started again, and to force it returns the value;
* the computation of a cell completes at most once;
* a successful force leaves its cell evaluated with the value it returns, and all later forces
  return that value;
* if computations along a chain of forces yield further cells and the outermost force of the chain
  succeeds, all cells of the chain are evaluated with the value it returns. -/
theorem session_memoized {c : Control} (hs : s.Idle) (h : Later ⟨s, c, []⟩ st) :
    (∀ id v later, st.store.cells[id]? = some (.evaluated v) → Later st later →
      later.store.cells[id]? = some (.evaluated v) ∧ ¬Starts id later ∧
      (later.control = .force (.cell id) →
        step later = some ⟨later.store, .value v, later.stack⟩)) ∧
    (∀ id later, Completes id st → Relation.TransGen Next st later → ¬Completes id later) ∧
    (∀ id v last, st.control = .force (.cell id) → EndsOn st.stack st last →
      last.control = .value v →
      last.store.cells[id]? = some (.evaluated v) ∧
      ∀ later, Later last later → later.control = .force (.cell id) →
        step later = some ⟨later.store, .value v, later.stack⟩) ∧
    (∀ inner id outer K v last, st.control = .value (.cell inner) →
      st.stack = .compute id :: (outer.map .settle ++ K) → EndsOn K st last →
      last.control = .value v →
      ∀ j ∈ inner :: id :: outer, last.store.cells[j]? = some (.evaluated v)) := by
  have hd : Disciplined st := (disciplined_of_idle hs c).later h
  have hreturn {id : ℕ} {v : Value} {later : State}
      (hcell : later.store.cells[id]? = some (.evaluated v))
      (hforce : later.control = .force (.cell id)) :
      step later = some ⟨later.store, .value v, later.stack⟩ := by
    obtain ⟨t, control, K⟩ := later
    cases hforce
    exact step_force_evaluated hcell
  refine ⟨?_, ?_, ?_, ?_⟩
  · intro id v later hcell hlater
    have hkept := hd.evaluated_of_later hcell hlater
    exact ⟨hkept, not_starts_of_evaluated hkept, hreturn hkept⟩
  · intro id later hcompletes hlater
    exact hd.completes_once hcompletes hlater
  · intro id v last hcontrol hends hv
    have hcell := hd.evaluated_of_success hcontrol hends hv
    refine ⟨hcell, fun later hlater => ?_⟩
    exact hreturn ((hd.later hends.later).evaluated_of_later hcell hlater)
  · intro inner id outer K v last hcontrol hstack hends hv
    -- the further cell is forced next, above the frames of all cells that wait for it
    obtain ⟨next, hstep, hrest⟩ :=
      hends.tail fun hend => cons_append_ne _ _ _ (hstack.symm.trans hend.1)
    have hnext : next = ⟨st.store, .force (.cell inner), (id :: outer).map .settle ++ K⟩ := by
      obtain ⟨t, control, stack⟩ := st
      cases hcontrol
      cases hstack
      exact (Option.some.inj hstep).symm
    subst hnext
    obtain ⟨mid, habove, hmid, hlater, hchain⟩ :=
      (hd.step hstep).evaluated_of_chain rfl hrest hv
    have hinner := (hd.step hstep).evaluated_of_success rfl habove hmid
    intro j hj
    rcases List.mem_cons.mp hj with rfl | hj
    · exact ((hd.step hstep).later habove.later).evaluated_of_later hinner hlater
    · exact hchain j hj

/-- A cell that yields a second one, which yields a third one. -/
def chainStore : Store where
  cells :=
    [.pending (.expression "a" false (.var "b") []), .pending (.expression "b" true (.var "c") []),
      .pending (.expression "c" false (.constant (.int 7)) [])]
  references := []
  globals := [("a", .cell 0), ("b", .cell 1), ("c", .cell 2)]
  counters := []
  log := []

/-- After six transitions the second cell yields the third one, and after six more the value is
known. -/
theorem session_memoized_chain :
    chainStore.Idle ∧
    Later ⟨chainStore, .force (.cell 0), []⟩ (run 6 ⟨chainStore, .force (.cell 0), []⟩) ∧
    ∀ j ∈ [2, 1, 0], (run 6 (run 6 ⟨chainStore, .force (.cell 0), []⟩)).store.cells[j]? =
      some (.evaluated (.int 7)) := by
  have hidle : chainStore.Idle := by
    rintro id ⟨comp, hcell⟩
    match id with
    | 0 | 1 | 2 => cases hcell
    | _ + 3 => cases hcell
  have hlater := run_later 6 ⟨chainStore, .force (.cell 0), []⟩
  have hends : EndsOn [] (run 6 ⟨chainStore, .force (.cell 0), []⟩)
      (run 6 (run 6 ⟨chainStore, .force (.cell 0), []⟩)) :=
    run_endsOn (o := .value (.int 7)) rfl
  obtain ⟨-, -, -, hchain⟩ := session_memoized hidle hlater
  exact ⟨hidle, hlater, hchain 2 1 [0] [] (.int 7) _ rfl rfl hends rfl⟩

end Numerals.Lazy
