import Numerals.Lazy.Machine
import Mathlib.Data.List.Basic
import Mathlib.Logic.Relation

/-!
# What a transition does

Most transitions leave the cells alone: they go on with the stack they find, put at most one frame
on it and add at most one cell (`Continues`). The others are about one cell: its computation starts
and a frame is pushed, or the frame is popped and the cell keeps a value or is pending again. Main
statement: `step_effect`, which says so of every transition. What holds of the cells along a run is
derived from it.
-/

namespace Numerals.Lazy

variable {held : Value → Prop} {s : Store} {stack : List Frame} {st next : State}

/-- Whether a cell is running. -/
def Cell.isRunning : Cell → Bool
  | running _ => true
  | _ => false

/-- The cell whose value a frame is about. -/
def Frame.forced? : Frame → Option ℕ
  | compute id | settle id => some id
  | _ => none

/-- Whether a frame waits for what the force of a value yields. -/
def Frame.awaitsForce : Frame → Bool
  | settle _ | operator _ | argument .. => true
  | _ => false

/-- The cells that are being forced, the innermost first. -/
def forcedBy (stack : List Frame) : List ℕ :=
  stack.filterMap Frame.forced?

/-- The cells that are being forced in a state. -/
def State.forced (st : State) : List ℕ :=
  forcedBy st.stack

/-- A cell is evaluated with the value `v`. -/
def Store.Holds (s : Store) (v : Value) : Prop :=
  ∃ id : ℕ, s.cells[id]? = some (.evaluated v)

/-- Whether the control is an outcome. -/
def Control.isOutcome : Control → Bool
  | value _ | fail _ | raise _ => true
  | _ => false

/-- Whether the control is an error. -/
def Control.isFailure : Control → Bool
  | fail _ | raise _ => true
  | _ => false

@[simp] theorem forcedBy_append (A B : List Frame) :
    forcedBy (A ++ B) = forcedBy A ++ forcedBy B :=
  List.filterMap_append

theorem forced_of_frame {id : ℕ} {f : Frame} {K : List Frame} (hstack : st.stack = f :: K)
    (hf : f.forced? = some id) : st.forced = id :: forcedBy K := by
  simp [State.forced, forcedBy, hstack, hf]

theorem Control.isOutcome_of_isFailure {c : Control} (h : c.isFailure = true) :
    c.isOutcome = true := by
  cases c with
  | fail | raise => rfl
  | _ => cases h

/-! ## Transitions that leave the cells alone -/

/-- The machine goes on above `stack`: it has pushed at most one frame, which is not about a cell,
and added at most one cell, which is not running. What waits for a force waits for one that comes
next, and an added cell holds only values that are `held`. -/
structure Continues (held : Value → Prop) (s : Store) (stack : List Frame) (next : State) :
    Prop where
  frames : ∃ pushed : Option Frame, next.stack = pushed.toList ++ stack ∧
    ∀ f ∈ pushed, f.forced? = none ∧ (f.awaitsForce = true → ∃ v, next.control = .force v)
  cells : ∃ added : Option Cell, next.store.cells = s.cells ++ added.toList ∧
    ∀ c ∈ added, c.isRunning = false ∧ ∀ v, c = .evaluated v → held v

namespace Continues

theorem same {s' : Store} {c : Control} (hs : s'.cells = s.cells) :
    Continues held s stack ⟨s', c, stack⟩ where
  frames := ⟨none, rfl, by simp⟩
  cells := ⟨none, by simpa using hs, by simp⟩

theorem push {c : Control} {f : Frame} (hf : f.forced? = none) (hw : f.awaitsForce = false) :
    Continues held s stack ⟨s, c, f :: stack⟩ where
  frames := ⟨some f, rfl, by simp [hf, hw]⟩
  cells := ⟨none, by simp, by simp⟩

theorem pushForce {v : Value} {f : Frame} (hf : f.forced? = none) :
    Continues held s stack ⟨s, .force v, f :: stack⟩ where
  frames := ⟨some f, rfl, by simp [hf]⟩
  cells := ⟨none, by simp, by simp⟩

theorem allocate {c : Cell} (hc : c.isRunning = false) (hh : ∀ v, c = .evaluated v → held v) :
    Continues held s stack (s.allocate c stack) where
  frames := ⟨none, rfl, by simp⟩
  cells := ⟨some c, rfl, by simpa using ⟨hc, hh⟩⟩

theorem mono {held' : Value → Prop} (h : Continues held s stack next)
    (hh : ∀ v, held v → held' v) : Continues held' s stack next where
  frames := h.frames
  cells := by
    obtain ⟨added, hcells, hadded⟩ := h.cells
    exact ⟨added, hcells, fun c hc => ⟨(hadded c hc).1, fun v hv => hh v ((hadded c hc).2 v hv)⟩⟩

theorem suffix (h : Continues held s stack next) : stack <:+ next.stack := by
  obtain ⟨pushed, hstack, -⟩ := h.frames
  exact ⟨_, hstack.symm⟩

theorem forced_eq (h : Continues held s stack next) : next.forced = forcedBy stack := by
  obtain ⟨pushed, hstack, hpushed⟩ := h.frames
  rw [State.forced, hstack, forcedBy_append]
  cases pushed with
  | none => rfl
  | some f => simp [forcedBy, (hpushed f rfl).1]

end Continues

theorem perform_continues (s : Store) (stack : List Frame) (op : Operation) (vs : List Value) :
    Continues (fun v => op = .value ∧ vs = [v]) s stack (perform s stack op vs) := by
  unfold perform
  split
  -- an evaluated cell is made of the operand
  case h_1 v =>
    exact .allocate rfl fun w hw => by simpa using hw
  -- to catch errors and to insist on a value are the operations that push a frame
  case h_3 => exact .push rfl rfl
  case h_5 => exact .push rfl rfl
  case h_9 => split <;> exact .same rfl
  all_goals exact .same rfl

theorem operate_continues (s : Store) (stack : List Frame) (scope : Scope) (op : Operation)
    (done : List Value) (rest : List Expr) :
    Continues (fun v => op = .value ∧ done = [v] ∧ rest = []) s stack
      (operate s stack scope op done rest) := by
  cases rest with
  | nil => exact (perform_continues s stack op done).mono fun v h => ⟨h.1, h.2, rfl⟩
  | cons e rest => exact .push rfl rfl

theorem evaluate_continues (s : Store) (stack : List Frame) (scope : Scope) (e : Expr) :
    Continues (fun _ => False) s stack (evaluate s stack scope e) := by
  cases e with
  | var name =>
    rw [evaluate]
    split <;> exact .same rfl
  | builtin name =>
    rw [evaluate]
    split <;> exact .same rfl
  | suspend label body => exact .allocate rfl (by simp)
  | suspendSafe label body => exact .allocate rfl (by simp)
  | suspendText x o => exact .allocate rfl (by simp)
  | bind name value body => exact .push rfl rfl
  | operate op operands =>
    exact (operate_continues s stack scope op [] operands).mono fun v h => by simpa using h.2.1
  | constant | native | suspendNothing | lambda | fail | raise | failTimes | log =>
    exact .same rfl

theorem invoke_continues (s : Store) (stack : List Frame) (f : Callable) (args : List Value) :
    Continues (fun _ => False) s stack (invoke s stack f args) := by
  unfold invoke
  split <;> exact .same rfl

theorem applyForced_continues (s : Store) (stack : List Frame) (v : Value) (args : List Value) :
    Continues (fun _ => False) s stack (applyForced s stack v args) := by
  unfold applyForced
  split
  · split
    · exact .same rfl
    · split
      · exact .same rfl
      · exact .push rfl rfl
  · exact .same rfl

theorem act_continues (s : Store) (stack : List Frame) (a : Action) :
    Continues (fun _ => False) s stack (act s stack a) := by
  cases a with
  | catchError action h => exact .push rfl rfl
  | result | newVariable | readVariable | writeVariable => exact .same rfl

theorem supply_continues (s : Store) (stack : List Frame) (name : String) (position : ℕ)
    (params : List Param) (f : Curried params) (args : List Value) :
    Continues (fun _ => False) s stack (supply s stack name position params f args) := by
  unfold supply
  split
  · exact act_continues s stack _
  · exact .same rfl
  · exact .pushForce rfl
  · exact .same rfl

/-- A value that meets a frame about no cell. Only the frame of an operation that makes an evaluated
cell puts it into one. -/
theorem resume_continues (s : Store) (stack : List Frame) (v : Value) {f : Frame}
    (hf : f.forced? = none) :
    Continues (fun w => w = v ∧ ∃ scope, f = .operands .value [] [] scope) s stack
      (resume s stack v f) := by
  cases f with
  | operands op done rest scope =>
    refine (operate_continues s stack scope op (done ++ [v]) rest).mono ?_
    -- the operation has one operand only if the value is the first one and no other follows
    rintro w ⟨rfl, hdone, rfl⟩
    obtain ⟨rfl, hw⟩ : done = [] ∧ v = w := by simpa [List.append_eq_singleton_iff] using hdone
    exact ⟨hw.symm, scope, rfl⟩
  | compute id => cases hf
  | settle id => cases hf
  | operator args => exact (applyForced_continues s stack v args).mono fun _ h => h.elim
  | argument name position p ps f args =>
    rw [resume]
    split <;> exact .same rfl
  | bind | insist | surplus | handler => exact .same rfl

/-! ## The force of a cell -/

section Force

variable {id : ℕ} {K : List Frame}

theorem step_force_pending {comp : Computation} (h : s.cells[id]? = some (.pending comp)) :
    step ⟨s, .force (.cell id), K⟩ = some (start (s.setCell id (.running comp)) K id comp) := by
  simp [step, force, h]

theorem step_force_running {comp : Computation} (h : s.cells[id]? = some (.running comp)) :
    step ⟨s, .force (.cell id), K⟩ = some ⟨s, .raise (.fault .reentrantForce), K⟩ := by
  simp [step, force, h]

theorem step_force_evaluated {v : Value} (h : s.cells[id]? = some (.evaluated v)) :
    step ⟨s, .force (.cell id), K⟩ = some ⟨s, .value v, K⟩ := by
  simp [step, force, h]

theorem step_force_missing (h : s.cells[id]? = none) :
    step ⟨s, .force (.cell id), K⟩ = some ⟨s, .misused, K⟩ := by
  simp [step, force, h]

end Force

/-! ## All transitions -/

/-- The frames of a computation that starts. -/
theorem start_stack (s : Store) (stack : List Frame) (id : ℕ) (comp : Computation) :
    (start s stack id comp).stack = .compute id :: stack ∨
    (start s stack id comp).stack = .insist :: .compute id :: stack := by
  cases comp with
  | expression label safe body scope =>
    cases safe with
    | false => exact .inl rfl
    | true => exact .inr rfl
  | rendering x o => exact .inl rfl

theorem compute_suffix_start (s : Store) (stack : List Frame) (id : ℕ) (comp : Computation) :
    .compute id :: stack <:+ (start s stack id comp).stack := by
  rcases start_stack s stack id comp with h | h
  · exact ⟨[], h.symm⟩
  · exact ⟨[.insist], h.symm⟩

@[simp] theorem start_cells (s : Store) (stack : List Frame) (id : ℕ) (comp : Computation) :
    (start s stack id comp).store.cells = s.cells := by
  cases comp <;> rfl

@[simp] theorem start_forced (s : Store) (stack : List Frame) (id : ℕ) (comp : Computation) :
    (start s stack id comp).forced = id :: forcedBy stack := by
  rcases start_stack s stack id comp with h | h <;> rw [State.forced, h] <;> rfl

/-- What a transition does. -/
inductive Effect (st next : State) : Prop where
  /-- The control is worked on. -/
  | work (hcontrol : st.control.isOutcome = false) (hforce : ∀ v, st.control ≠ .force v)
      (h : Continues (fun _ => False) st.store st.stack next)
  /-- A force has an outcome at once. If it is a cell, an evaluated cell holds it. -/
  | answer (v : Value) (o : Control) (hcontrol : st.control = .force v) (ho : o.isOutcome = true)
      (hheld : ∀ w, o = .value w → w.isCell = true → st.store.Holds w)
      (h : next = ⟨st.store, o, st.stack⟩)
  /-- The computation of a pending cell starts. -/
  | start (id : ℕ) (comp : Computation) (hcontrol : st.control = .force (.cell id))
      (hcell : st.store.cells[id]? = some (.pending comp))
      (h : next = Lazy.start (st.store.setCell id (.running comp)) st.stack id comp)
  /-- An outcome meets a frame about no cell. -/
  | pass (f : Frame) (K : List Frame) (hstack : st.stack = f :: K) (hf : f.forced? = none)
      (hcontrol : st.control.isOutcome = true)
      (h : Continues (fun w => st.control = .value w ∧ ∃ scope, f = .operands .value [] [] scope)
        st.store K next)
  /-- The computation of a cell yields a further cell. -/
  | chain (id inner : ℕ) (K : List Frame) (hcontrol : st.control = .value (.cell inner))
      (hstack : st.stack = .compute id :: K)
      (h : next = ⟨st.store, .force (.cell inner), .settle id :: K⟩)
  /-- A cell keeps a value. -/
  | complete (id : ℕ) (v : Value) (f : Frame) (K : List Frame) (hcontrol : st.control = .value v)
      (hstack : st.stack = f :: K) (hf : f.forced? = some id)
      (hv : f = .compute id → v.isCell = false)
      (h : next = ⟨st.store.setCell id (.evaluated v), .value v, K⟩)
  /-- An error leaves a cell. -/
  | abandon (id : ℕ) (f : Frame) (K : List Frame) (hcontrol : st.control.isFailure = true)
      (hstack : st.stack = f :: K) (hf : f.forced? = some id)
      (h : next = ⟨st.store.release id, st.control, K⟩)

theorem force_effect (s : Store) (stack : List Frame) (v : Value) :
    Effect ⟨s, .force v, stack⟩ (force s stack v) := by
  unfold force
  split
  · rename_i id
    split
    · rename_i w hcell
      refine .answer _ (.value w) rfl rfl ?_ rfl
      rintro _ ⟨rfl⟩ -
      exact ⟨id, hcell⟩
    · exact .answer _ _ rfl rfl (by simp) rfl
    · rename_i comp hcell
      exact .start id comp rfl hcell rfl
    · exact .answer _ .misused rfl rfl (by simp [Control.misused]) rfl
  · rename_i hv
    refine .answer v (.value v) rfl rfl ?_ rfl
    rintro _ ⟨rfl⟩ hcell
    cases v with
    | cell id => exact absurd rfl (hv id)
    | _ => cases hcell

theorem resume_effect (s : Store) (K : List Frame) (v : Value) (f : Frame) :
    Effect ⟨s, .value v, f :: K⟩ (resume s K v f) := by
  cases hf : f.forced? with
  | none =>
    refine .pass f K rfl hf rfl ((resume_continues s K v hf).mono ?_)
    rintro w ⟨rfl, hscope⟩
    exact ⟨rfl, hscope⟩
  | some id =>
    cases f with
    | compute id' =>
      cases hf
      rw [resume]
      split
      · rename_i hcell
        cases v with
        | cell inner => exact .chain id inner K rfl rfl rfl
        | _ => cases hcell
      · rename_i hcell
        exact .complete id v _ K rfl rfl rfl (fun _ => by simpa using hcell) rfl
    | settle id' =>
      cases hf
      exact .complete id v _ K rfl rfl rfl (by simp) rfl
    | _ => cases hf

theorem returnError_effect (s : Store) (K : List Frame) (e : Error) (f : Frame) :
    Effect ⟨s, .fail e, f :: K⟩ (returnError s K e f) := by
  cases f with
  | compute id | settle id => exact .abandon id _ K rfl rfl rfl rfl
  | operands | bind | insist | operator | surplus | handler | argument =>
    exact .pass _ K rfl rfl rfl (.same rfl)

theorem raiseError_effect (s : Store) (K : List Frame) (e : Error) (f : Frame) :
    Effect ⟨s, .raise e, f :: K⟩ (raiseError s K e f) := by
  cases f with
  | compute id | settle id => exact .abandon id _ K rfl rfl rfl rfl
  | handler h =>
    rw [raiseError]
    split <;> exact .pass _ K rfl rfl rfl (.same rfl)
  | operands | bind | insist | operator | surplus | argument =>
    exact .pass _ K rfl rfl rfl (.same rfl)

/-- What every transition does. -/
theorem step_effect (h : step st = some next) : Effect st next := by
  obtain ⟨s, control, stack⟩ := st
  cases control with
  | eval e scope =>
    cases h
    exact .work rfl (by simp) (evaluate_continues s stack scope e)
  | force v =>
    cases h
    exact force_effect s stack v
  | apply f args =>
    cases h
    exact .work rfl (by simp) (.pushForce rfl)
  | invoke f args =>
    cases h
    exact .work rfl (by simp) (invoke_continues s stack f args)
  | supply name position params f args =>
    cases h
    exact .work rfl (by simp) (supply_continues s stack name position params f args)
  | value v =>
    cases stack with
    | nil => cases h
    | cons f K =>
      cases h
      exact resume_effect s K v f
  | fail e =>
    cases stack with
    | nil => cases h
    | cons f K =>
      cases h
      exact returnError_effect s K e f
  | raise e =>
    cases stack with
    | nil => cases h
    | cons f K =>
      cases h
      exact raiseError_effect s K e f

/-- A transition that is not the end of what is done above `K` leaves `K` as it is. -/
theorem step_suffix {K : List Frame} (h : step st = some next) (hK : K <:+ st.stack)
    (hend : ¬(st.stack = K ∧ st.control.isOutcome = true)) : K <:+ next.stack := by
  -- an outcome takes off the first frame, which then is not one of `K`
  have hpop {f : Frame} {L : List Frame} (hstack : st.stack = f :: L)
      (ho : st.control.isOutcome = true) : K <:+ L := by
    rcases List.suffix_cons_iff.mp (hstack ▸ hK) with heq | hsuffix
    · exact absurd ⟨hstack.trans heq.symm, ho⟩ hend
    · exact hsuffix
  cases step_effect h with
  | work _ _ hc => exact hK.trans hc.suffix
  | answer v o _ _ _ hnext =>
    subst hnext
    exact hK
  | start id comp _ _ hnext =>
    subst hnext
    exact (hK.trans (List.suffix_cons _ _)).trans (compute_suffix_start _ st.stack id comp)
  | pass f L hstack _ ho hc => exact (hpop hstack ho).trans hc.suffix
  | chain id inner L hcontrol hstack hnext =>
    subst hnext
    exact (hpop hstack (by rw [hcontrol]; rfl)).trans (List.suffix_cons _ _)
  | complete id v f L hcontrol hstack _ _ hnext =>
    subst hnext
    exact hpop hstack (by rw [hcontrol]; rfl)
  | abandon id f L hcontrol hstack _ hnext =>
    subst hnext
    exact hpop hstack (Control.isOutcome_of_isFailure hcontrol)

end Numerals.Lazy
