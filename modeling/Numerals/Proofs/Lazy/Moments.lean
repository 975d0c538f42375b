import Numerals.Proofs.Lazy.Context
import Numerals.Proofs.Lazy.Memoization

/-!
# The moments of an evaluation

What holds of the cells along a session that begins with no cell running holds along every
evaluation: cells that are running when it begins belong to forces further out, and the evaluation
does what it does above their frames. Main statement: an evaluation leaves running the cells that it
finds running, and no others. A cell whose computation it starts is evaluated at its end or pending
with that computation, and is started a second time only after an error has interrupted the first.
-/

namespace Numerals.Lazy

variable {s s' : Store} {c : Control} {o : Outcome} {st mid next x y : State} {id : ℕ} {v : Value}
  {comp : Computation} {K L : List Frame}

/-! ## Moments -/

theorem Reaches.later (h : Reaches st x) : Later st x := by
  induction h with
  | refl => exact .refl
  | tail _ hstep ih => exact ih.tail (.step hstep)

theorem run_reaches (n : ℕ) (st : State) : Reaches st (run n st) := by
  induction n generalizing st with
  | zero => exact .refl
  | succ n ih =>
    rw [run]
    split
    · rename_i next hstep
      exact .head hstep (ih next)
    · exact .refl

/-- Where there is a transition, frames below have no effect on it. -/
theorem step_onto_of_step (hstep : step st = some next) (K : List Frame) :
    step (st.onto K) = some (next.onto K) := by
  have hgo : ¬(st.stack = [] ∧ st.control.isOutcome = true) := by
    rintro ⟨hstack, ho⟩
    rw [step_eq_none hstack ho] at hstep
    cases hstep
  rw [step_onto hgo, hstep]
  rfl

theorem Reaches.onto (h : Reaches st x) (K : List Frame) : Reaches (st.onto K) (x.onto K) := by
  induction h with
  | refl => exact .refl
  | tail _ hstep ih => exact ih.tail (step_onto_of_step hstep K)

/-- An evaluation ends as it does from any of its moments on. -/
theorem Reaches.endsOn_iff {last : State} (h : Reaches st x) :
    EndsOn [] st last ↔ EndsOn [] x last := by
  induction h with
  | refl => rfl
  | tail _ hstep ih =>
    rw [ih]
    refine EndsOn.step_iff ?_ hstep
    rintro ⟨hstack, ho⟩
    rw [step_eq_none hstack ho] at hstep
    cases hstep

/-- What holds at one moment and no longer at a later one is lost in a transition between them. -/
theorem Reaches.exists_turn {P : State → Prop} (h : Reaches x y) (hx : P x) (hy : ¬P y) :
    ∃ z z', Reaches x z ∧ step z = some z' ∧ Reaches z' y ∧ P z ∧ ¬P z' := by
  induction h using Relation.ReflTransGen.head_induction_on with
  | refl => exact absurd hx hy
  | @head a b hstep hrest ih =>
    by_cases hb : P b
    · obtain ⟨z, z', hz, hturn⟩ := ih hb
      exact ⟨z, z', .head hstep hz, hturn⟩
    · exact ⟨a, b, .refl, hstep, hrest, hx, hb⟩

/-- As long as what is done above a stack has not come to its end, the stack is there. -/
theorem EndsOn.suffix_or_reaches (h : EndsOn L st mid) (hL : L <:+ st.stack) (hx : Reaches st x) :
    L <:+ x.stack ∨ Reaches mid x := by
  induction h with
  | done _ _ => exact .inr hx
  | step hgo hstep _ ih =>
    rcases hx.cases_head with rfl | ⟨next', hstep', hrest⟩
    · exact .inl hL
    · cases hstep.symm.trans hstep'
      exact ih (step_suffix hstep hL hgo) hrest

/-- From the end of an evaluation no other moment is reached. -/
theorem reaches_outcome_iff : Reaches ⟨s, o.control, []⟩ x ↔ x = ⟨s, o.control, []⟩ := by
  constructor
  · intro h
    rcases h.cases_head with rfl | ⟨next, hstep, -⟩
    · rfl
    · rw [step_eq_none rfl (isOutcome_control o)] at hstep
      cases hstep
  · rintro rfl
    exact .refl

/-- Every moment of an evaluation is before its end. -/
theorem Evaluates.reaches_end (h : Evaluates s c o s') (hx : Reaches ⟨s, c, []⟩ x) :
    Reaches x ⟨s', o.control, []⟩ := by
  have hunique : Relator.RightUnique fun st next : State => step st = some next :=
    fun _ _ _ h h' => Option.some.inj (h.symm.trans h')
  rcases Relation.ReflTransGen.total_of_right_unique hunique hx (evaluates_iff.mp h).reaches with
    hend | hend
  · exact hend
  · rw [reaches_outcome_iff.mp hend]

/-- An evaluation that reaches an outcome with nothing left on the stack has it. -/
theorem Reaches.evaluates (h : Reaches ⟨s, c, []⟩ ⟨s', o.control, []⟩) : Evaluates s c o s' :=
  evaluates_iff.mpr (h.endsOn_iff.mpr (.done rfl (isOutcome_control o)))

/-! ## Cells that run further out -/

/-- The frames of the forces further out, if the running cells are those that are being forced. -/
def Store.outerFrames (s : Store) : List Frame :=
  ((List.range s.cells.length).filter fun id => s.cells[id]?.any Cell.isRunning).map .compute

theorem forcedBy_map_compute (ids : List ℕ) : forcedBy (ids.map .compute) = ids := by
  simp [forcedBy, List.filterMap_map, Function.comp_def, Frame.forced?]

theorem isRunning_iff_any : s.IsRunning id ↔ s.cells[id]?.any Cell.isRunning = true := by
  unfold Store.IsRunning
  rcases hcell : s.cells[id]? with - | cell
  · simp
  · cases cell <;> simp [Cell.isRunning]

theorem mem_outerFrames_iff : id ∈ forcedBy s.outerFrames ↔ s.IsRunning id := by
  rw [Store.outerFrames, forcedBy_map_compute, List.mem_filter, List.mem_range, isRunning_iff_any]
  constructor
  · exact And.right
  · intro h
    refine ⟨?_, h⟩
    by_contra hlt
    rw [List.getElem?_eq_none (by omega)] at h
    cases h

/-- Above the frames of the forces further out, every store is that of a disciplined state. -/
theorem disciplined_onto_outer (s : Store) (c : Control) :
    Disciplined (State.onto ⟨s, c, []⟩ s.outerFrames) where
  nodup := by
    change (forcedBy s.outerFrames).Nodup
    rw [Store.outerFrames, forcedBy_map_compute]
    exact List.nodup_range.filter _
  running_iff id := mem_outerFrames_iff.symm

theorem Reaches.disciplined (h : Reaches ⟨s, c, []⟩ x) : Disciplined (x.onto s.outerFrames) :=
  (disciplined_onto_outer s c).later (h.onto _).later

/-- A cell that runs further out goes on running. -/
theorem Reaches.isRunning (h : Reaches ⟨s, c, []⟩ x) (hid : s.IsRunning id) :
    x.store.IsRunning id := by
  refine (h.disciplined.running_iff id).mpr ?_
  rw [State.forced, State.onto, forcedBy_append]
  exact List.mem_append_right _ (mem_outerFrames_iff.mpr hid)

/-- An evaluation leaves running the cells that it finds running, and no others. -/
theorem Evaluates.isRunning_iff (h : Evaluates s c o s') : s'.IsRunning id ↔ s.IsRunning id := by
  have hd := (evaluates_iff.mp h).reaches.disciplined
  exact (hd.running_iff id).trans mem_outerFrames_iff

/-- What becomes of a cell between two moments of an evaluation. -/
theorem Reaches.evolves {cell : Cell} (h : Reaches ⟨s, c, []⟩ x) (hxy : Reaches x y)
    (hcell : x.store.cells[id]? = some cell) :
    ∃ cell', y.store.cells[id]? = some cell' ∧ cell.Evolves cell' := by
  have hlater := (hxy.onto s.outerFrames).later
  obtain ⟨cell', hcell', hevolves⟩ := h.disciplined.evolves hlater hcell
  exact ⟨cell', hcell', hevolves⟩

theorem Reaches.evaluated (h : Reaches ⟨s, c, []⟩ x) (hxy : Reaches x y)
    (hcell : x.store.cells[id]? = some (.evaluated v)) :
    y.store.cells[id]? = some (.evaluated v) := by
  obtain ⟨cell', hcell', rfl⟩ := h.evolves hxy hcell
  exact hcell'

/-! ## Starts, completions and interruptions -/

/-- The transition from `st` interrupts the computation of the cell `id`, which waits to be started
again from then on. -/
def Interrupts (id : ℕ) (st : State) : Prop :=
  ∃ next comp, step st = some next ∧ st.store.cells[id]? = some (.running comp) ∧
    next.store.cells[id]? = some (.pending comp)

/-- A cell gets a value by the completion of its computation only. -/
theorem Disciplined.completes {cell : Cell} (hd : Disciplined st) (hstep : Lazy.step st = some next)
    (hcell : st.store.cells[id]? = some cell) (hold : ∀ w, cell ≠ .evaluated w)
    (hnew : next.store.cells[id]? = some (.evaluated v)) : Completes id st := by
  -- a cell that stays as it is has no value afterwards either
  have hsame (h : next.store.cells[id]? = some cell) : Completes id st := by
    cases h.symm.trans hnew
    exact absurd rfl (hold v)
  cases step_effect hstep with
  | work _ _ hcont => exact hsame (hcont.cells_eq hcell)
  | answer _ _ _ _ _ hnext => exact hsame (by rwa [hnext])
  | pass _ _ _ _ _ hcont => exact hsame (hcont.cells_eq hcell)
  | chain _ _ _ _ _ hnext => exact hsame (by rwa [hnext])
  | start j comp _ hpending hnext =>
    rw [hnext, start_cells] at hnew
    by_cases hj : id = j
    · subst hj
      rw [cells_setCell_self hpending] at hnew
      cases hnew
    · exact hsame (by rw [hnext, start_cells, cells_setCell_ne hj, hcell])
  | complete j w f K _ hstack hf _ hnext =>
    by_cases hj : id = j
    · subst hj
      obtain ⟨comp, hrunning⟩ := hd.running_of_frame hstack hf
      exact ⟨next, comp, v, hstep, hrunning, hnew⟩
    · exact hsame (by rw [hnext, cells_setCell_ne hj, hcell])
  | abandon j f K _ hstack hf hnext =>
    by_cases hj : id = j
    · subst hj
      obtain ⟨comp, hrunning⟩ := hd.running_of_frame hstack hf
      rw [hnext, cells_release (.inr ⟨rfl, hrunning⟩)] at hnew
      cases hnew
    · exact hsame (by rw [hnext, cells_release_ne hj, hcell])

theorem Completes.of_onto (h : Completes id (x.onto K)) (hstep : step x = some next) :
    Completes id x := by
  obtain ⟨next', comp, v, hstep', hrunning, hevaluated⟩ := h
  cases (step_onto_of_step hstep K).symm.trans hstep'
  exact ⟨next, comp, v, hstep, hrunning, hevaluated⟩

/-- Between a moment at which a cell has no value and one at which it has one, its computation
completes. -/
theorem Reaches.exists_completes {cell : Cell} (h : Reaches ⟨s, c, []⟩ x) (hxy : Reaches x y)
    (hcell : x.store.cells[id]? = some cell) (hold : ∀ w, cell ≠ .evaluated w)
    (hnew : y.store.cells[id]? = some (.evaluated v)) : ∃ z, Reaches x z ∧ Completes id z := by
  obtain ⟨z, z', hxz, hstep, hrest, hz, hz'⟩ :=
    hxy.exists_turn (P := fun z => ∀ w, z.store.cells[id]? ≠ some (.evaluated w))
      (fun w hw => hold w (Option.some.inj (hcell.symm.trans hw))) (fun hall => hall v hnew)
  push Not at hz'
  obtain ⟨w, hw⟩ := hz'
  obtain ⟨cell', hcell', -⟩ := h.evolves hxz hcell
  have hd : Disciplined (z.onto s.outerFrames) := Reaches.disciplined (h.trans hxz)
  have hcompletes : Completes id (z.onto s.outerFrames) := by
    refine hd.completes (step_onto_of_step hstep _) hcell' ?_ hw
    rintro w' rfl
    exact hz w' hcell'
  exact ⟨z, hxz, hcompletes.of_onto hstep⟩

/-- A cell whose computation is started in an evaluation and does not complete is pending with it at
the end. -/
theorem Evaluates.pending_of_starts (h : Evaluates s c o s') (hx : Reaches ⟨s, c, []⟩ x)
    (hcell : x.store.cells[id]? = some (.pending comp))
    (hnever : ∀ y, Reaches x y → ¬Completes id y) : s'.cells[id]? = some (.pending comp) := by
  have hend := h.reaches_end hx
  obtain ⟨cell, hcell', rfl | rfl | ⟨v, rfl⟩⟩ := hx.evolves hend hcell
  · exact hcell'
  · -- the cell would have been running all the time
    obtain ⟨comp', hrunning⟩ := hx.isRunning (h.isRunning_iff.mp ⟨comp, hcell'⟩)
    cases hcell.symm.trans hrunning
  · obtain ⟨y, hxy, hcompletes⟩ := hx.exists_completes hend hcell (by simp) hcell'
    exact absurd hcompletes (hnever y hxy)

/-- Once it has completed, a computation is not started again. -/
theorem Reaches.not_starts_of_completes (h : Reaches ⟨s, c, []⟩ x) (hx : Completes id x)
    (hxy : Relation.TransGen (fun st next => step st = some next) x y) : ¬Starts id y := by
  obtain ⟨next, comp, v, hstep, -, hevaluated⟩ := hx
  obtain ⟨next', hstep', hrest⟩ := Relation.TransGen.head'_iff.mp hxy
  cases hstep.symm.trans hstep'
  exact not_starts_of_evaluated (Reaches.evaluated (h.tail hstep) hrest hevaluated)

/-- Between two starts of a computation it is interrupted. -/
theorem Reaches.exists_interrupts (h : Reaches ⟨s, c, []⟩ x) (hx : Starts id x)
    (hxy : Relation.TransGen (fun st next => step st = some next) x y) (hy : Starts id y) :
    ∃ z, Reaches x z ∧ Reaches z y ∧ Interrupts id z := by
  obtain ⟨next, comp, hstep, -, hrunning⟩ := hx
  obtain ⟨-, comp', -, hpending, -⟩ := hy
  obtain ⟨next', hstep', hrest⟩ := Relation.TransGen.head'_iff.mp hxy
  cases hstep.symm.trans hstep'
  have hnext := h.tail hstep
  -- the cell runs after the first start and no longer before the second one
  obtain ⟨z, z', hz, hturn, hlast, ⟨compz, hcell⟩, hstopped⟩ :=
    Reaches.exists_turn (P := fun z => z.store.IsRunning id) hrest ⟨comp, hrunning⟩
      (by rintro ⟨comp'', hcell⟩; cases hpending.symm.trans hcell)
  refine ⟨z, .head hstep hz, .head hturn hlast, z', compz, hturn, hcell, ?_⟩
  obtain ⟨cell, hcell', rfl | rfl | ⟨v, rfl⟩⟩ :=
    Reaches.evolves (hnext.trans hz) (.single hturn) hcell
  · exact hcell'
  · exact absurd ⟨compz, hcell'⟩ hstopped
  · -- a value would have been kept until the second start
    have hkept := Reaches.evaluated ((hnext.trans hz).tail hturn) hlast hcell'
    cases hkept.symm.trans hpending

end Numerals.Lazy
