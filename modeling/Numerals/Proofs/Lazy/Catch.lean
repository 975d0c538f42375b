import Numerals.Proofs.Lazy.Moments
import Numerals.Proofs.Lazy.Supply

/-!
# Errors that are caught

An action is run with the frame of its handler below it. The frame lets values pass, and raised
errors without a category; it applies the handler to all other errors, after the frame is gone and
in the store that the action has left. In this store nothing is lost: computations that the error
has interrupted wait to be started again, and values that were found before it are kept.
-/

namespace Numerals.Lazy

variable {s s' : Store} {st : State} {action h : Value} {o : Outcome} {e : Error}
  {f : Failure Error}

/-! ## The frame of a handler -/

/-- The states in which an action and a handler for its errors are at hand, as the operands of the
operation that catches errors or as the arguments of the built-in function. -/
inductive Catching (s : Store) (action h : Value) : State → Prop where
  | operation : Catching s action h (perform s [] .catchError [action, h])
  | builtin : Catching s action h ⟨s, Registry.builtins.call "catch" [action, h], []⟩

theorem Catching.reaches (hst : Catching s action h st) :
    Reaches st ⟨s, .apply action [], [.handler h]⟩ := by
  cases hst with
  | operation => exact .refl
  | builtin =>
    have hlen : [action, h].length = Builtin.catchError.arity := rfl
    -- both arguments are taken as they are
    exact (reaches_supply hlen).trans (.head rfl (.head rfl (.single rfl)))

/-- The frame of the handler is below until the action has its outcome. -/
theorem Catching.waits (hst : Catching s action h st)
    (heval : Evaluates s (.apply action []) o s') : Reaches st ⟨s', o.control, [.handler h]⟩ :=
  hst.reaches.trans (heval.reaches_frame _)

/-- An outcome that passes the frame is that of the whole. -/
theorem Catching.drops (hst : Catching s action h st) (heval : Evaluates s (.apply action []) o s')
    (hstep : step ⟨s', o.control, [.handler h]⟩ = some ⟨s', o.control, []⟩) :
    EndsOn [] st ⟨s', o.control, []⟩ ∧ Reaches st ⟨s', o.control, [.handler h]⟩ ∧
      step ⟨s', o.control, [.handler h]⟩ = some ⟨s', o.control, []⟩ := by
  have hends : Reaches st ⟨s', o.control, []⟩ := (hst.waits heval).tail hstep
  exact ⟨hends.endsOn_iff.mpr (.done rfl (isOutcome_control o)), hst.waits heval, hstep⟩

theorem step_handler_value (v : Value) :
    step ⟨s, .value v, [.handler h]⟩ = some ⟨s, .value v, []⟩ := rfl

theorem step_handler_uncaught (he : e.isClassified = false) :
    step ⟨s, .raise e, [.handler h]⟩ = some ⟨s, .raise e, []⟩ := by
  simp [step, raiseError, he]

theorem step_handler_caught (hf : f = .returned e ∨ f = .raised e ∧ e.isClassified = true) :
    step ⟨s, (Outcome.failure f).control, [.handler h]⟩ = some ⟨s, .apply h [.error e], []⟩ := by
  rcases hf with rfl | ⟨rfl, he⟩
  · rfl
  · simp [step, raiseError, Outcome.control, he]

/-! ## The store that an error leaves -/

/-- The evaluation from `st` has left the store `s'` such that everything can be tried again. -/
structure Retryable (st : State) (s' : Store) : Prop where
  /-- A cell whose computation was started and did not complete any more is pending with this
  computation. -/
  interrupted : ∀ (x : State) (id : ℕ) (comp : Computation), Reaches st x → Starts id x →
    x.store.cells[id]? = some (.pending comp) → (∀ y, Reaches x y → ¬Completes id y) →
    s'.cells[id]? = some (.pending comp)
  /-- A cell that had a value at some moment has kept it. -/
  completed : ∀ (x : State) (id : ℕ) (v : Value), Reaches st x →
    x.store.cells[id]? = some (.evaluated v) → s'.cells[id]? = some (.evaluated v)
  /-- The cells that are running are those of the forces further out. -/
  running : ∀ id, s'.IsRunning id ↔ st.store.IsRunning id

theorem Evaluates.retryable {c : Control} (heval : Evaluates s c o s') :
    Retryable ⟨s, c, []⟩ s' where
  interrupted := by
    intro x id comp hx _ hcell hnever
    exact heval.pending_of_starts hx hcell hnever
  completed := by
    intro x id v hx hcell
    exact hx.evaluated (heval.reaches_end hx) hcell
  running := by
    intro id
    exact heval.isRunning_iff

/-- What becomes of an action that is run with a handler for its errors, in whatever store:
* if it yields a value, the handler is dropped and this is the value, in the store of the action;
* if it returns an error, or raises one that is classified, the outcome is that of the handler on
  this error, in the store that the error has left, from which everything can be tried again. The
  handler is applied without the frame, so that errors of its own are not caught here;
* if it raises any other error, the handler is dropped and the error goes on. -/
theorem catch_handles (hst : Catching s action h st) :
    (∀ v s', Evaluates s (.apply action []) (.value v) s' →
      EndsOn [] st ⟨s', .value v, []⟩ ∧ Reaches st ⟨s', .value v, [.handler h]⟩ ∧
      step ⟨s', .value v, [.handler h]⟩ = some ⟨s', .value v, []⟩) ∧
    (∀ f e s', Evaluates s (.apply action []) (.failure f) s' →
      f = .returned e ∨ f = .raised e ∧ e.isClassified = true →
      Retryable ⟨s, .apply action [], []⟩ s' ∧ Reaches st ⟨s', .apply h [.error e], []⟩ ∧
      ∀ o s'', EndsOn [] st ⟨s'', o.control, []⟩ ↔ Evaluates s' (.apply h [.error e]) o s'') ∧
    (∀ e s', Evaluates s (.apply action []) (.failure (.raised e)) s' → e.isClassified = false →
      EndsOn [] st ⟨s', .raise e, []⟩ ∧ Reaches st ⟨s', .raise e, [.handler h]⟩ ∧
      step ⟨s', .raise e, [.handler h]⟩ = some ⟨s', .raise e, []⟩) := by
  refine ⟨?_, ?_, ?_⟩
  · intro v s' heval
    exact hst.drops heval (step_handler_value v)
  · intro f e s' heval hf
    have happlied : Reaches st ⟨s', .apply h [.error e], []⟩ :=
      (hst.waits heval).tail (step_handler_caught hf)
    refine ⟨heval.retryable, happlied, ?_⟩
    intro o s''
    rw [happlied.endsOn_iff, evaluates_iff]
  · intro e s' heval he
    exact hst.drops heval (step_handler_uncaught he)

/-- A cell that forces two others, the first of which has a value and the second of which raises an
error. A fourth cell is running further out. -/
def brokenStore : Store where
  cells :=
    [.pending (.expression "outer" false
        (.operate .seq [.operate .force [.var "first"], .operate .force [.var "second"]]) []),
      .pending (.expression "first" false (.constant (.int 7)) []),
      .pending (.expression "second" true (.fail (.fault .quotientByZero)) []),
      .running (.expression "further" false (.var "first") [])]
  references := []
  globals := [("first", .cell 1), ("second", .cell 2)]
  counters := []
  log := []

/-- A handler that returns the category of the error. -/
def categoryHandler : Value :=
  .callable (.primitive "handler" 1 (.closure ["e"] (.operate .category [.var "e"]) []))

/-- The error comes out of the second cell and out of the first one, and both wait to be started
again when the handler gets it. -/
theorem catch_handles_nested :
    ∃ s' s'', Evaluates brokenStore (.apply (.cell 0) [])
        (.failure (.raised (.fault .quotientByZero))) s' ∧
      s'.cells.eraseIdx 1 = brokenStore.cells.eraseIdx 1 ∧
      s'.cells[1]? = some (.evaluated (.int 7)) ∧
      EndsOn [] ⟨brokenStore, Registry.builtins.call "catch" [.cell 0, categoryHandler], []⟩
        ⟨s'', .value (.text "INVALID_ARGUMENT"), []⟩ := by
  have heval : Evaluates brokenStore (.apply (.cell 0) [])
      (.failure (.raised (.fault .quotientByZero)))
      (run 30 ⟨brokenStore, .apply (.cell 0) [], []⟩).store := ⟨30, rfl, rfl⟩
  obtain ⟨-, hcaught, -⟩ := catch_handles (s := brokenStore) (h := categoryHandler) .builtin
  obtain ⟨hretryable, -, houtcome⟩ := hcaught _ _ _ heval (.inr ⟨rfl, rfl⟩)
  refine ⟨_, _, heval, rfl, ?_, (houtcome (.value _) _).mpr ⟨20, rfl, rfl⟩⟩
  -- the value was there before the error
  exact hretryable.completed _ 1 _ (run_reaches 12 _) rfl

end Numerals.Lazy
