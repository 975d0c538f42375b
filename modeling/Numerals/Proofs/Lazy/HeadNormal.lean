import Numerals.Proofs.Lazy.Memoization
import Mathlib.Data.List.Chain

/-!
# Values that are not cells

What a computation yields is forced until it is not a cell, so that a cell keeps a cell only if a
force returned one, and a force returns a cell only if an evaluated cell holds one. The one way in
for a cell is the operation that makes an evaluated cell of its operand, which takes any value. Main
statement: as long as that operation is not applied to a cell, no evaluated cell holds a cell and no
force returns one; once it is, the cell it makes holds a cell for the rest of the session.
-/

namespace Numerals.Lazy

variable {s : Store} {st next : State} {id : ℕ} {v : Value} {K : List Frame}

/-- No evaluated cell holds a cell. -/
def Store.HeadNormal (s : Store) : Prop :=
  ∀ v, s.Holds v → v.isCell = false

/-- The transition from `st` makes an evaluated cell of a cell. -/
def Wraps (st : State) : Prop :=
  ∃ inner scope K, st.control = .value (.cell inner) ∧
    st.stack = .operands .value [] [] scope :: K

/-! ## Values held by evaluated cells -/

theorem holds_setCell {c : Cell} (h : (s.setCell id c).Holds v) : s.Holds v ∨ c = .evaluated v := by
  obtain ⟨j, hj⟩ := h
  by_cases hid : j = id
  · subst hid
    right
    have hlt : j < s.cells.length := by
      simpa [Store.setCell] using (List.getElem?_eq_some_iff.mp hj).1
    rw [cells_setCell_self (List.getElem?_eq_getElem hlt)] at hj
    exact Option.some.inj hj
  · left
    rw [cells_setCell_ne hid] at hj
    exact ⟨j, hj⟩

theorem Continues.holds {held : Value → Prop} (h : Continues held s K next)
    (hv : next.store.Holds v) : s.Holds v ∨ held v := by
  obtain ⟨added, hcells, hadded⟩ := h.cells
  obtain ⟨j, hj⟩ := hv
  rw [hcells] at hj
  by_cases hlt : j < s.cells.length
  · rw [List.getElem?_append_left hlt] at hj
    exact .inl ⟨j, hj⟩
  · rw [List.getElem?_append_right (by omega)] at hj
    have hmem := Option.mem_toList.mp (List.mem_of_getElem? hj)
    exact .inr ((hadded _ hmem).2 v rfl)

/-- The cell is evaluated and holds a cell. -/
def Cell.holdsCell : Cell → Bool
  | .evaluated v => v.isCell
  | _ => false

theorem headNormal_iff : (s.cells.all fun c => !c.holdsCell) = true ↔ s.HeadNormal := by
  rw [List.all_eq_true]
  constructor
  · rintro h v ⟨id, hid⟩
    simpa [Cell.holdsCell] using h _ (List.mem_of_getElem? hid)
  · intro h c hc
    cases c with
    | evaluated v =>
      obtain ⟨id, hid⟩ := List.mem_iff_getElem?.mp hc
      simpa [Cell.holdsCell] using h v ⟨id, hid⟩
    | _ => rfl

instance (s : Store) : Decidable s.HeadNormal :=
  decidable_of_iff (s.cells.all fun c => !c.holdsCell) headNormal_iff

/-! ## Frames that wait for a force -/

/-- Of two frames, one on the other, the lower one waits for a force only if the upper one is that
of a cell. -/
def Shields (f g : Frame) : Prop :=
  g.awaitsForce = true → f.forced?.isSome = true

/-- What a frame that waits for a force may see: the force itself or its outcome. A cell is an
outcome only if an evaluated cell holds it. -/
def Control.Answers (s : Store) : Control → Prop
  | .force _ | .fail _ | .raise _ => True
  | .value v => v.isCell = true → s.Holds v
  | _ => False

/-- Whatever waits for a force sees the force or its outcome. -/
structure Shielded (st : State) : Prop where
  chain : st.stack.IsChain Shields
  head : ∀ f ∈ st.stack.head?, f.awaitsForce = true → st.control.Answers st.store

theorem shielded_nil (s : Store) (c : Control) : Shielded ⟨s, c, []⟩ where
  chain := .nil
  head := by simp

/-- The machine goes on above frames of which the first does not wait for a force. -/
theorem Continues.shielded {held : Value → Prop} (h : Continues held s K next)
    (hK : K.IsChain Shields) (hhead : ∀ f ∈ K.head?, f.awaitsForce = false) : Shielded next := by
  obtain ⟨pushed, hstack, hpushed⟩ := h.frames
  cases pushed with
  | none =>
    change next.stack = K at hstack
    refine ⟨by rwa [hstack], fun f hf hawaits => ?_⟩
    rw [hstack] at hf
    simp [hhead f hf] at hawaits
  | some f =>
    change next.stack = f :: K at hstack
    refine ⟨?_, ?_⟩
    · rw [hstack, List.isChain_cons]
      refine ⟨fun g hg hawaits => ?_, hK⟩
      simp [hhead g hg] at hawaits
    · intro g hg hawaits
      rw [hstack] at hg
      cases hg
      obtain ⟨v, hcontrol⟩ := (hpushed f rfl).2 hawaits
      rw [hcontrol]
      trivial

theorem Shielded.step (hs : Shielded st) (hd : Disciplined st) (h : Lazy.step st = some next) :
    Shielded next := by
  have hchain := hs.chain
  cases step_effect h with
  | work hcontrol hforce hc =>
    refine hc.shielded hchain fun f hf => ?_
    -- a frame that waits for a force would see neither a force nor an outcome
    by_contra hawaits
    have hanswers := hs.head f hf (by simpa using hawaits)
    cases hcase : st.control with
    | force v => exact hforce v hcase
    | value | fail | raise => simp [hcase, Control.isOutcome] at hcontrol
    | eval | apply | invoke | supply =>
      rw [hcase] at hanswers
      exact hanswers
  | answer v o _ ho hheld hnext =>
    subst hnext
    refine ⟨hchain, fun f _ _ => ?_⟩
    cases o with
    | value w => exact hheld w rfl
    | fail | raise => trivial
    | _ => cases ho
  | start id comp _ _ hnext =>
    subst hnext
    have hcompute : List.IsChain Shields (.compute id :: st.stack) :=
      List.isChain_cons.mpr ⟨fun g _ _ => rfl, hchain⟩
    rcases start_stack (st.store.setCell id (.running comp)) st.stack id comp with hst | hst
    · refine ⟨by rwa [hst], ?_⟩
      rw [hst]
      rintro f ⟨rfl⟩ hawaits
      cases hawaits
    · refine ⟨?_, ?_⟩
      · rw [hst]
        refine List.isChain_cons.mpr ⟨?_, hcompute⟩
        rintro g ⟨rfl⟩ hawaits
        cases hawaits
      · rw [hst]
        rintro f ⟨rfl⟩ hawaits
        cases hawaits
  | pass f K hstack hf _ hc =>
    rw [hstack, List.isChain_cons] at hchain
    refine hc.shielded hchain.2 fun g hg => ?_
    -- below a frame about no cell, no frame waits for a force
    by_contra hawaits
    have hsome := hchain.1 g hg (by simpa using hawaits)
    simp [hf] at hsome
  | chain id inner K _ hstack hnext =>
    subst hnext
    rw [hstack, List.isChain_cons] at hchain
    refine ⟨List.isChain_cons.mpr ⟨fun g _ _ => rfl, hchain.2⟩, fun f _ _ => ?_⟩
    trivial
  | complete id v f K hcontrol hstack hf _ hnext =>
    subst hnext
    rw [hstack, List.isChain_cons] at hchain
    -- the value that goes on is the one that the cell now holds
    obtain ⟨comp, hrunning⟩ := hd.running_of_frame hstack hf
    exact ⟨hchain.2, fun _ _ _ _ => ⟨id, cells_setCell_self hrunning _⟩⟩
  | abandon id f K hcontrol hstack hf hnext =>
    subst hnext
    rw [hstack, List.isChain_cons] at hchain
    refine ⟨hchain.2, fun _ _ _ => ?_⟩
    change st.control.Answers _
    cases hcase : st.control with
    | fail | raise => trivial
    | _ => simp [hcase, Control.isFailure] at hcontrol

/-! ## What a transition keeps -/

/-- Only a transition that makes an evaluated cell of a cell lets a cell in. -/
theorem headNormal_step (hs : Shielded st) (hd : Disciplined st) (hn : st.store.HeadNormal)
    (h : step st = some next) (hw : ¬Wraps st) : next.store.HeadNormal := by
  intro w hholds
  cases step_effect h with
  | work _ _ hc =>
    rcases hc.holds hholds with hold | hfalse
    · exact hn w hold
    · exact hfalse.elim
  | answer v o _ _ _ hnext =>
    subst hnext
    exact hn w hholds
  | start id comp _ _ hnext =>
    subst hnext
    have hset : (st.store.setCell id (.running comp)).Holds w := by
      obtain ⟨j, hj⟩ := hholds
      rw [start_cells] at hj
      exact ⟨j, hj⟩
    rcases holds_setCell hset with hold | hnew
    · exact hn w hold
    · cases hnew
  | pass f K hstack _ _ hc =>
    rcases hc.holds hholds with hold | ⟨hcontrol, scope, rfl⟩
    · exact hn w hold
    · cases w with
      | cell inner => exact absurd ⟨inner, scope, K, hcontrol, hstack⟩ hw
      | _ => rfl
  | chain id inner K _ _ hnext =>
    subst hnext
    exact hn w hholds
  | complete id v f K hcontrol hstack hf hv hnext =>
    subst hnext
    rcases holds_setCell hholds with hold | hnew
    · exact hn w hold
    · cases hnew
      cases f with
      | compute id' =>
        cases hf
        exact hv rfl
      | settle id' =>
        -- the frame waited for a force, which returns only cells that are held
        by_contra hcell
        have hanswers := hs.head (.settle id') (by simp [hstack]) rfl
        rw [hcontrol] at hanswers
        exact hcell (hn w (hanswers (by simpa using hcell)))
      | _ => cases hf
  | abandon id f K _ hstack hf hnext =>
    subst hnext
    obtain ⟨comp, hrunning⟩ := hd.running_of_frame hstack hf
    rw [release_of_running hrunning] at hholds
    rcases holds_setCell hholds with hold | hnew
    · exact hn w hold
    · cases hnew

/-! ## What a session keeps -/

theorem Shielded.later {last : State} (hs : Shielded st) (hd : Disciplined st)
    (h : Later st last) : Shielded last := by
  induction h with
  | refl => exact hs
  | tail hlater hnext ih =>
    cases hnext with
    | step hstep => exact ih.step (hd.later hlater) hstep
    | begin _ s _ c => exact shielded_nil s c

/-- A store without cells in evaluated cells stays so until one is put there. -/
theorem headNormal_or_wraps {c : Control} (hs : s.Idle) (hn : s.HeadNormal)
    (h : Later ⟨s, c, []⟩ st) :
    st.store.HeadNormal ∨
    ∃ m, Later ⟨s, c, []⟩ m ∧ Relation.TransGen Next m st ∧ Wraps m := by
  induction h with
  | refl => exact .inl hn
  | @tail mid st hlater hnext ih =>
    rcases ih with hmid | ⟨m, hm, hmst, hwraps⟩
    · by_cases hw : Wraps mid
      · exact .inr ⟨mid, hlater, .single hnext, hw⟩
      · left
        have hd := (disciplined_of_idle hs c).later hlater
        have hshielded := (shielded_nil s c).later (disciplined_of_idle hs c) hlater
        cases hnext with
        | step hstep => exact headNormal_step hshielded hd hmid hstep hw
        | begin _ s' hs' _ =>
          rintro v ⟨j, hj⟩
          rw [hs'] at hj
          exact hmid v ⟨j, hj⟩
    · exact .inr ⟨m, hm, hmst.tail hnext, hwraps⟩

/-- A cell that was put into an evaluated cell stays there. -/
theorem Disciplined.not_headNormal_of_wraps {m : State} (hd : Disciplined m) (hw : Wraps m)
    (h : Relation.TransGen Next m st) : ¬st.store.HeadNormal := by
  intro hn
  obtain ⟨next, hnext, hlater⟩ := Relation.TransGen.head'_iff.mp h
  obtain ⟨inner, scope, K, hcontrol, hstack⟩ := hw
  have hstep : Lazy.step m = some (m.store.allocate (.evaluated (.cell inner)) K) := by
    obtain ⟨t, control, stack⟩ := m
    cases hcontrol
    cases hstack
    rfl
  cases hnext.eq_of_step hstep
  have hnew : (m.store.allocate (.evaluated (.cell inner)) K).store.cells[m.store.cells.length]? =
      some (.evaluated (.cell inner)) := by simp [Store.allocate, Store.addCell]
  have hkept := (hd.step hstep).evaluated_of_later hnew hlater
  cases hn _ ⟨_, hkept⟩

/-- In a session that begins with no cell running and no cell in an evaluated cell, evaluated cells
hold no cells exactly as long as no evaluated cell is made of a cell, and a force returns a cell only
after one was. -/
theorem session_headNormal {c : Control} (hs : s.Idle) (hn : s.HeadNormal)
    (h : Later ⟨s, c, []⟩ st) :
    (st.store.HeadNormal ↔
      ¬∃ m, Later ⟨s, c, []⟩ m ∧ Relation.TransGen Next m st ∧ Wraps m) ∧
    (∀ v w last, st.control = .force v → EndsOn st.stack st last → last.control = .value w →
      w.isCell = true → ∃ m, Later ⟨s, c, []⟩ m ∧ Relation.TransGen Next m last ∧ Wraps m) := by
  have hd₀ := disciplined_of_idle hs c
  refine ⟨⟨?_, ?_⟩, ?_⟩
  · rintro hst ⟨m, hm, hmst, hwraps⟩
    exact (hd₀.later hm).not_headNormal_of_wraps hwraps hmst hst
  · intro hnone
    exact (headNormal_or_wraps hs hn h).resolve_right hnone
  · intro v w last hcontrol hends hw hcell
    refine (headNormal_or_wraps hs hn (h.trans hends.later)).resolve_left fun hlast => ?_
    -- a value that is not a cell is returned as it is, and what the force of a cell returns is held
    cases v with
    | cell id =>
      have hkept := (hd₀.later h).evaluated_of_success hcontrol hends hw
      rw [hlast w ⟨id, hkept⟩] at hcell
      cases hcell
    | _ =>
      obtain ⟨t, control, K⟩ := st
      cases hcontrol
      obtain ⟨next, hstep, hrest⟩ := hends.tail (by simp [Control.isOutcome])
      cases hstep
      cases hrest.eq_of_outcome rfl rfl
      cases hw
      cases hcell

/-- Forces an evaluated cell that is made of an evaluated cell. -/
def forceOfWrapped : Control :=
  .eval (.operate .force [.operate .value [.operate .value [.constant (.int 3)]]]) []

/-- After seven transitions the outer cell is forced, and the next one returns the inner cell, not
the value of that cell. -/
theorem force_returns_cell :
    ∃ st last, Later ⟨.empty, forceOfWrapped, []⟩ st ∧ st.control = .force (.cell 1) ∧
      EndsOn st.stack st last ∧ last.control = .value (.cell 0) ∧ ¬last.store.HeadNormal := by
  have hends : EndsOn [] (run 7 ⟨.empty, forceOfWrapped, []⟩)
      (run 1 (run 7 ⟨.empty, forceOfWrapped, []⟩)) :=
    run_endsOn (o := .value (.cell 0)) rfl
  refine ⟨_, _, run_later 7 _, rfl, hends, rfl, ?_⟩
  intro hn
  cases hn (.cell 0) ⟨1, rfl⟩

/-- In that session an evaluated cell was made of a cell before the force returned one. -/
theorem session_headNormal_wrapped :
    Store.empty.Idle ∧ Store.empty.HeadNormal ∧
    Later ⟨.empty, forceOfWrapped, []⟩ (run 7 ⟨.empty, forceOfWrapped, []⟩) ∧
    ∃ m, Later ⟨.empty, forceOfWrapped, []⟩ m ∧
      Relation.TransGen Next m (run 8 ⟨.empty, forceOfWrapped, []⟩) ∧ Wraps m := by
  have hidle : Store.empty.Idle := by
    rintro id ⟨comp, hcell⟩
    cases hcell
  have hnormal : Store.empty.HeadNormal := by
    rintro v ⟨id, hcell⟩
    cases hcell
  have hlater := run_later 7 ⟨.empty, forceOfWrapped, []⟩
  have hends : EndsOn [] (run 7 ⟨.empty, forceOfWrapped, []⟩)
      (run 1 (run 7 ⟨.empty, forceOfWrapped, []⟩)) :=
    run_endsOn (o := .value (.cell 0)) rfl
  obtain ⟨-, hreturn⟩ := session_headNormal hidle hnormal hlater
  exact ⟨hidle, hnormal, hlater, hreturn (.cell 1) (.cell 0) _ rfl hends rfl rfl⟩

end Numerals.Lazy
