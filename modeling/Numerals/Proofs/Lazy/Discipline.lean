import Numerals.Proofs.Lazy.Evaluation

/-!
# Running cells

In a session that begins with no cell running, the running cells are at every moment those whose
frames are on the stack, and each of them has one frame. This follows from what single transitions
do. A cell changes only by its own frame: while it waits there it keeps its computation, and once it
is evaluated it has no frame any more. Main statement: to force a running cell is a fatal fault that
changes nothing; an error that ends the force of a cell leaves the cell pending with the computation
it had; and when nothing is left on the stack, no cell is running, not even after a cycle of cells
that force each other.
-/

namespace Numerals.Lazy

variable {s : Store} {st next last : State} {id j : ℕ} {K : List Frame}

/-- The cell `id` is running. -/
def Store.IsRunning (s : Store) (id : ℕ) : Prop :=
  ∃ comp, s.cells[id]? = some (.running comp)

/-- No cell is running. -/
def Store.Idle (s : Store) : Prop :=
  ∀ id, ¬s.IsRunning id

/-- The running cells are those that are being forced, each of them once. -/
structure Disciplined (st : State) : Prop where
  nodup : st.forced.Nodup
  running_iff (id : ℕ) : st.store.IsRunning id ↔ id ∈ st.forced

/-! ## Changes of single cells -/

theorem cells_setCell_ne (hj : j ≠ id) (c : Cell) : (s.setCell id c).cells[j]? = s.cells[j]? :=
  List.getElem?_set_ne hj.symm

theorem cells_setCell_self {old : Cell} (h : s.cells[id]? = some old) (c : Cell) :
    (s.setCell id c).cells[id]? = some c :=
  List.getElem?_set_self (List.getElem?_eq_some_iff.mp h).1

theorem isRunning_setCell_ne (hj : j ≠ id) (c : Cell) :
    (s.setCell id c).IsRunning j ↔ s.IsRunning j := by
  unfold Store.IsRunning
  rw [cells_setCell_ne hj]

theorem not_isRunning_setCell {old c : Cell} (h : s.cells[id]? = some old)
    (hc : c.isRunning = false) : ¬(s.setCell id c).IsRunning id := by
  rintro ⟨comp, hcell⟩
  rw [cells_setCell_self h] at hcell
  cases hcell
  cases hc

theorem release_of_running {comp : Computation} (h : s.cells[id]? = some (.running comp)) :
    s.release id = s.setCell id (.pending comp) := by
  unfold Store.release
  rw [h]

namespace Continues

variable {held : Value → Prop}

theorem cells_eq (h : Continues held s K next) {c : Cell} (hc : s.cells[id]? = some c) :
    next.store.cells[id]? = some c := by
  obtain ⟨added, hcells, -⟩ := h.cells
  rw [hcells, List.getElem?_append_left (List.getElem?_eq_some_iff.mp hc).1, hc]

theorem isRunning_iff (h : Continues held s K next) : next.store.IsRunning id ↔ s.IsRunning id := by
  constructor
  · rintro ⟨comp, hcell⟩
    obtain ⟨added, hcells, hadded⟩ := h.cells
    rw [hcells] at hcell
    by_cases hlt : id < s.cells.length
    · exact ⟨comp, by rwa [List.getElem?_append_left hlt] at hcell⟩
    · -- an added cell is not running
      have hmem : .running comp ∈ added := by
        rw [List.getElem?_append_right (by omega)] at hcell
        exact Option.mem_toList.mp (List.mem_of_getElem? hcell)
      cases (hadded _ hmem).1
  · rintro ⟨comp, hcell⟩
    exact ⟨comp, h.cells_eq hcell⟩

end Continues

/-! ## What a transition keeps -/

theorem Disciplined.of_continues {held : Value → Prop} (hd : Disciplined st)
    (h : Continues held st.store K next) (hK : forcedBy K = st.forced) : Disciplined next where
  nodup := by
    rw [h.forced_eq, hK]
    exact hd.nodup
  running_iff id := by
    rw [h.isRunning_iff, h.forced_eq, hK]
    exact hd.running_iff id

theorem Disciplined.of_same (hd : Disciplined st) (c : Control) (hK : forcedBy K = st.forced) :
    Disciplined ⟨st.store, c, K⟩ := by
  have hc : Continues (fun _ => False) st.store K ⟨st.store, c, K⟩ := .same rfl
  exact hd.of_continues hc hK

/-- The innermost of the cells that are being forced gets another state and is no longer forced. -/
theorem Disciplined.leave {c : Cell} {control : Control} (hd : Disciplined st)
    (hforced : st.forced = id :: forcedBy K) (hc : c.isRunning = false) :
    Disciplined ⟨st.store.setCell id c, control, K⟩ := by
  have hnodup := hd.nodup
  rw [hforced, List.nodup_cons] at hnodup
  obtain ⟨comp, hcell⟩ := (hd.running_iff id).mpr (by simp [hforced])
  refine ⟨hnodup.2, fun j => ?_⟩
  change (st.store.setCell id c).IsRunning j ↔ j ∈ forcedBy K
  by_cases hj : j = id
  · -- the cell itself: it had only one frame, which is gone
    subst hj
    exact iff_of_false (not_isRunning_setCell hcell hc) hnodup.1
  · rw [isRunning_setCell_ne hj, hd.running_iff, hforced, List.mem_cons]
    simp [hj]

theorem Disciplined.running_of_frame {f : Frame} (hd : Disciplined st) (hstack : st.stack = f :: K)
    (hf : f.forced? = some id) : ∃ comp, st.store.cells[id]? = some (.running comp) :=
  (hd.running_iff id).mpr (by simp [forced_of_frame hstack hf])

theorem Disciplined.step (hd : Disciplined st) (h : step st = some next) : Disciplined next := by
  cases step_effect h with
  | work _ _ hc => exact hd.of_continues hc rfl
  | answer v o _ _ _ hnext =>
    subst hnext
    exact hd.of_same o rfl
  | pass f K hstack hf _ hc =>
    exact hd.of_continues hc (by simp [State.forced, forcedBy, hstack, hf])
  | chain id inner K hcontrol hstack hnext =>
    subst hnext
    exact hd.of_same _ (forced_of_frame hstack rfl).symm
  | start id comp hcontrol hcell hnext =>
    subst hnext
    -- a pending cell is not being forced yet
    have hnew : id ∉ st.forced := by
      rw [← hd.running_iff]
      rintro ⟨comp', hrunning⟩
      cases hcell.symm.trans hrunning
    refine ⟨?_, fun j => ?_⟩
    · rw [start_forced]
      exact List.nodup_cons.mpr ⟨hnew, hd.nodup⟩
    · rw [start_forced, List.mem_cons]
      change (∃ comp', (start _ _ _ _).store.cells[j]? = some (.running comp')) ↔ _
      rw [start_cells]
      by_cases hj : j = id
      · subst hj
        exact iff_of_true ⟨comp, cells_setCell_self hcell _⟩ (.inl rfl)
      · change (st.store.setCell id (.running comp)).IsRunning j ↔ _
        rw [isRunning_setCell_ne hj, hd.running_iff]
        simp [hj, State.forced]
  | complete id v f K _ hstack hf _ hnext =>
    subst hnext
    exact hd.leave (forced_of_frame hstack hf) rfl
  | abandon id f K _ hstack hf hnext =>
    subst hnext
    obtain ⟨comp, hcell⟩ := hd.running_of_frame hstack hf
    rw [release_of_running hcell]
    exact hd.leave (forced_of_frame hstack hf) rfl

/-- What can become of a cell: its computation stays the same until there is a value, and then the
value stays the same. -/
def Cell.Evolves : Cell → Cell → Prop
  | .evaluated v, c => c = .evaluated v
  | .pending comp, c | .running comp, c =>
    c = .pending comp ∨ c = .running comp ∨ ∃ v, c = .evaluated v

theorem Cell.Evolves.refl (c : Cell) : c.Evolves c := by
  cases c <;> simp [Cell.Evolves]

theorem Cell.Evolves.trans {a b c : Cell} (hab : a.Evolves b) (hbc : b.Evolves c) :
    a.Evolves c := by
  cases a with
  | evaluated v =>
    cases hab
    exact hbc
  | pending comp | running comp =>
    rcases hab with rfl | rfl | ⟨v, rfl⟩
    · exact hbc
    · exact hbc
    · exact .inr (.inr ⟨v, hbc⟩)

theorem Disciplined.evolves_step {c : Cell} (hd : Disciplined st) (h : Lazy.step st = some next)
    (hc : st.store.cells[id]? = some c) :
    ∃ c', next.store.cells[id]? = some c' ∧ c.Evolves c' := by
  -- a cell that another one replaces, if it is the one in question
  have hset {j : ℕ} {old new : Cell} (hold : st.store.cells[j]? = some old)
      (hnew : old.Evolves new) :
      ∃ c', (st.store.setCell j new).cells[id]? = some c' ∧ c.Evolves c' := by
    by_cases hj : id = j
    · subst hj
      cases hold.symm.trans hc
      exact ⟨new, cells_setCell_self hc new, hnew⟩
    · exact ⟨c, by rw [cells_setCell_ne hj, hc], .refl c⟩
  cases step_effect h with
  | work _ _ hcont => exact ⟨c, hcont.cells_eq hc, .refl c⟩
  | answer v o _ _ _ hnext =>
    subst hnext
    exact ⟨c, hc, .refl c⟩
  | pass f K _ _ _ hcont => exact ⟨c, hcont.cells_eq hc, .refl c⟩
  | chain j inner K _ _ hnext =>
    subst hnext
    exact ⟨c, hc, .refl c⟩
  | start j comp _ hcell hnext =>
    subst hnext
    rw [start_cells]
    exact hset hcell (.inr (.inl rfl))
  | complete j v f K _ hstack hf _ hnext =>
    subst hnext
    obtain ⟨comp, hcell⟩ := hd.running_of_frame hstack hf
    exact hset hcell (.inr (.inr ⟨v, rfl⟩))
  | abandon j f K _ hstack hf hnext =>
    subst hnext
    obtain ⟨comp, hcell⟩ := hd.running_of_frame hstack hf
    rw [release_of_running hcell]
    exact hset hcell (.inl rfl)

/-! ## What a session keeps -/

theorem Disciplined.idle (hd : Disciplined st) (hstack : st.stack = []) : st.store.Idle := by
  intro id hrunning
  have hmem := (hd.running_iff id).mp hrunning
  rw [State.forced, hstack] at hmem
  cases hmem

theorem Store.Idle.of_cells_eq {s' : Store} (hs : s.Idle) (hcells : s'.cells = s.cells) :
    s'.Idle := by
  rintro id ⟨comp, hcell⟩
  exact hs id ⟨comp, hcells ▸ hcell⟩

theorem disciplined_of_idle (hs : s.Idle) (c : Control) : Disciplined ⟨s, c, []⟩ where
  nodup := List.nodup_nil
  running_iff id := iff_of_false (hs id) (by simp [State.forced, forcedBy])

theorem Disciplined.of_next (hd : Disciplined st) (h : Next st next) : Disciplined next := by
  cases h with
  | step hstep => exact hd.step hstep
  | begin ho s hs c =>
    exact disciplined_of_idle ((hd.idle (stack_of_outcome? ho)).of_cells_eq hs) c

theorem Disciplined.later (hd : Disciplined st) (h : Later st last) : Disciplined last := by
  induction h with
  | refl => exact hd
  | tail _ hnext ih => exact ih.of_next hnext

theorem Disciplined.evolves {c : Cell} (hd : Disciplined st) (h : Later st last)
    (hc : st.store.cells[id]? = some c) :
    ∃ c', last.store.cells[id]? = some c' ∧ c.Evolves c' := by
  induction h with
  | refl => exact ⟨c, hc, .refl c⟩
  | tail hlater hnext ih =>
    obtain ⟨c', hc', hevolves⟩ := ih
    cases hnext with
    | step hstep =>
      obtain ⟨c'', hc'', hevolves'⟩ := (hd.later hlater).evolves_step hstep hc'
      exact ⟨c'', hc'', hevolves.trans hevolves'⟩
    | begin _ s hs _ => exact ⟨c', by rwa [hs], hevolves⟩

/-- A cell that waits or runs keeps its computation as long as it has no value. -/
theorem Disciplined.pending_of_later {comp : Computation} (hd : Disciplined st)
    (h : Later st last) (hc : st.store.cells[id]? = some (.pending comp))
    (hv : ∀ v, last.store.cells[id]? ≠ some (.evaluated v)) (hr : ¬last.store.IsRunning id) :
    last.store.cells[id]? = some (.pending comp) := by
  obtain ⟨c', hc', rfl | rfl | ⟨v, rfl⟩⟩ := hd.evolves h hc
  · exact hc'
  · exact absurd ⟨comp, hc'⟩ hr
  · exact absurd hc' (hv v)

/-! ## Errors that leave cells -/

/-- A force that fails leaves its cell as it was. -/
theorem Disciplined.pending_of_failure {comp : Computation} (hd : Disciplined st)
    (hcontrol : st.control = .force (.cell id))
    (hcell : st.store.cells[id]? = some (.pending comp)) (h : EndsOn st.stack st last)
    (hfail : last.control.isFailure = true) : last.store.cells[id]? = some (.pending comp) := by
  obtain ⟨s, control, K⟩ := st
  cases hcontrol
  obtain ⟨mid, hlater, hforced, hleaves⟩ := h.force_leaves hcell
  cases hleaves with
  | kept v _ hlast => simp [hlast, Control.isFailure] at hfail
  | abandoned _ hlast =>
    -- until then the cell was running, with the computation it had at the beginning
    obtain ⟨comp', hrunning⟩ := ((hd.later hlater).running_iff id).mpr hforced
    obtain ⟨c', hc', hevolves⟩ := hd.evolves hlater hcell
    cases hrunning.symm.trans hc'
    have heq : comp' = comp := by simpa [Cell.Evolves] using hevolves
    subst heq hlast
    change (mid.store.release id).cells[id]? = _
    rw [release_of_running hrunning]
    exact cells_setCell_self hrunning _

/-- Whether a frame takes errors. -/
def Frame.catches : Frame → Bool
  | handler _ => true
  | _ => false

/-- One frame that takes no errors is passed. -/
theorem step_raise {f : Frame} (hf : f.catches = false) (e : Error) :
    step ⟨s, .raise e, f :: K⟩ = some ⟨(f.forced?.map s.release).getD s, .raise e, K⟩ := by
  cases f with
  | handler h => cases hf
  | _ => rfl

/-- After a release, a cell that was running or pending is not running. -/
theorem cells_release {comp : Computation}
    (hj : s.cells[j]? = some (.pending comp) ∨ j = id ∧ s.cells[j]? = some (.running comp)) :
    (s.release id).cells[j]? = some (.pending comp) := by
  rcases hj with hpending | ⟨rfl, hrunning⟩
  · unfold Store.release
    split
    · rename_i comp' hrunning
      have hne : j ≠ id := by
        rintro rfl
        cases hpending.symm.trans hrunning
      rw [cells_setCell_ne hne, hpending]
    · exact hpending
  · rw [release_of_running hrunning]
    exact cells_setCell_self hrunning _

theorem cells_release_ne (hj : j ≠ id) : (s.release id).cells[j]? = s.cells[j]? := by
  unfold Store.release
  split
  · exact cells_setCell_ne hj _
  · rfl

/-- A raised error that meets no handler above `K` gets to `K`, and the cells on the way to it are
pending. -/
theorem unwind (e : Error) (A K : List Frame) (hA : ∀ f ∈ A, f.catches = false) (s : Store) :
    ∃ s', EndsOn K ⟨s, .raise e, A ++ K⟩ ⟨s', .raise e, K⟩ ∧
      ∀ j comp, (s.cells[j]? = some (.pending comp) ∨
          j ∈ forcedBy A ∧ s.cells[j]? = some (.running comp)) →
        s'.cells[j]? = some (.pending comp) := by
  induction A generalizing s with
  | nil =>
    refine ⟨s, .done rfl rfl, ?_⟩
    rintro j comp (hpending | ⟨hmem, -⟩)
    · exact hpending
    · cases hmem
  | cons f A ih =>
    have hstep := step_raise (s := s) (K := A ++ K) (hA f (by simp)) e
    obtain ⟨s', hends, hcells⟩ := ih (fun g hg => hA g (by simp [hg]))
      ((f.forced?.map s.release).getD s)
    refine ⟨s', .step (fun hend => cons_append_ne f A K hend.1) hstep hends, fun j comp hj => ?_⟩
    refine hcells j comp ?_
    cases hf : f.forced? with
    | none => simpa [forcedBy, hf] using hj
    | some id =>
      -- the frame of `id` releases `id` and no other cell
      simp only [forcedBy, List.filterMap_cons_some hf, List.mem_cons] at hj
      by_cases hid : j = id
      · exact .inl (cells_release (hj.imp_right fun h => ⟨hid, h.2⟩))
      · change (s.release id).cells[j]? = _ ∨ _ ∧ (s.release id).cells[j]? = _
        rw [cells_release_ne hid]
        exact hj.imp_right fun h => ⟨h.1.resolve_left hid, h.2⟩

/-- In a session that begins with no cell running:
* at every moment the running cells are those whose force is on the stack, each there once;
* to force a running cell raises a fatal fault and changes nothing else;
* a force that started the computation of a cell and ends with an error leaves the cell pending with
  that computation, which the next force starts again;
* at the end of an outermost evaluation no cell is running;
* an error that comes from a cycle leaves all cells pending up to the next handler, or all of the
  cycle if there is none. -/
theorem session_disciplined {c : Control} (hs : s.Idle) (h : Later ⟨s, c, []⟩ st) :
    ((∀ id, st.store.IsRunning id ↔ id ∈ st.forced) ∧ st.forced.Nodup) ∧
    (∀ id, st.control = .force (.cell id) → st.store.IsRunning id →
      ∃ f : Fault, f.category = .reentrantForce ∧ f.category.isFatal = true ∧
        step st = some ⟨st.store, .raise (.fault f), st.stack⟩) ∧
    (∀ id comp last, st.control = .force (.cell id) →
      st.store.cells[id]? = some (.pending comp) → EndsOn st.stack st last →
      last.control.isFailure = true →
      last.store.cells[id]? = some (.pending comp) ∧
      ∀ again, Later last again → again.control = .force (.cell id) →
        (∀ v, again.store.cells[id]? ≠ some (.evaluated v)) → ¬again.store.IsRunning id →
        step again =
          some (start (again.store.setCell id (.running comp)) again.stack id comp)) ∧
    (∀ o, st.outcome? = some o → st.store.Idle) ∧
    (∀ id A K, st.control = .force (.cell id) → st.stack = A ++ K → id ∈ forcedBy A →
      (∀ f ∈ A, f.catches = false) →
      ∃ s', EndsOn K st ⟨s', .raise (.fault .reentrantForce), K⟩ ∧
        ∀ j ∈ forcedBy A, ∃ comp, st.store.cells[j]? = some (.running comp) ∧
          s'.cells[j]? = some (.pending comp)) := by
  have hd : Disciplined st := (disciplined_of_idle hs c).later h
  refine ⟨⟨hd.running_iff, hd.nodup⟩, ?_, ?_, ?_, ?_⟩
  · intro id hcontrol hrunning
    obtain ⟨comp, hcell⟩ := hrunning
    refine ⟨.reentrantForce, rfl, rfl, ?_⟩
    obtain ⟨t, control, K⟩ := st
    cases hcontrol
    exact step_force_running hcell
  · intro id comp last hcontrol hcell hends hfail
    have hpending := hd.pending_of_failure hcontrol hcell hends hfail
    refine ⟨hpending, ?_⟩
    intro again hagain hforce hvalue hrunning
    have hcell' := (hd.later hends.later).pending_of_later hagain hpending hvalue hrunning
    obtain ⟨t, control, K⟩ := again
    cases hforce
    exact step_force_pending hcell'
  · intro o ho
    exact hd.idle (stack_of_outcome? ho)
  · intro id A K hcontrol hstack hid hA
    -- all cells of `A` are running, so that the force raises the fault, which then unwinds `A`
    have hrunning : ∀ j ∈ forcedBy A, st.store.IsRunning j := by
      intro j hj
      rw [hd.running_iff, State.forced, hstack, forcedBy_append]
      exact List.mem_append_left _ hj
    obtain ⟨comp, hcell⟩ := hrunning id hid
    obtain ⟨t, control, stack⟩ := st
    cases hcontrol
    cases hstack
    obtain ⟨s', hends, hcells⟩ := unwind (.fault .reentrantForce) A K hA t
    refine ⟨s', .step (by simp [Control.isOutcome]) (step_force_running hcell) hends, ?_⟩
    intro j hj
    obtain ⟨comp', hcell'⟩ := hrunning j hj
    exact ⟨comp', hcell', hcells j comp' (.inr ⟨hj, hcell'⟩)⟩

/-- Two cells that force each other. The computation of the second one raises its errors. -/
def cyclicStore : Store where
  cells :=
    [.pending (.expression "a" false (.operate .force [.var "b"]) []),
      .pending (.expression "b" true (.operate .force [.var "a"]) [])]
  references := []
  globals := [("a", .cell 0), ("b", .cell 1)]
  counters := []
  log := []

/-- Eight transitions lead back to the first cell, with both cells running. -/
theorem session_disciplined_cycle :
    cyclicStore.Idle ∧
    Later ⟨cyclicStore, .force (.cell 0), []⟩ (run 8 ⟨cyclicStore, .force (.cell 0), []⟩) ∧
    ∃ s', EndsOn [] (run 8 ⟨cyclicStore, .force (.cell 0), []⟩)
        ⟨s', .raise (.fault .reentrantForce), []⟩ ∧
      ∀ j ∈ [1, 0], ∃ comp, s'.cells[j]? = some (.pending comp) := by
  have hidle : cyclicStore.Idle := by
    rintro id ⟨comp, hcell⟩
    match id with
    | 0 | 1 => cases hcell
    | _ + 2 => cases hcell
  have hlater := run_later 8 ⟨cyclicStore, .force (.cell 0), []⟩
  obtain ⟨-, -, -, -, hcycle⟩ := session_disciplined hidle hlater
  obtain ⟨s', hends, hcells⟩ :=
    hcycle 0 [.insist, .compute 1, .compute 0] [] rfl rfl (by decide) (by simp [Frame.catches])
  refine ⟨hidle, hlater, s', hends, fun j hj => ?_⟩
  obtain ⟨comp, -, hpending⟩ := hcells j hj
  exact ⟨comp, hpending⟩

end Numerals.Lazy
