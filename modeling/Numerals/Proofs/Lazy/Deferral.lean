import Numerals.Proofs.Lazy.Argument

/-!
# Arguments that are deferred

A value can be given to a built-in function as it is, or as a cell that yields it. The cell is
forced when its turn comes, and from then on the call does what it does with the value: it depends
on the values of the arguments that are checked, and on nothing else about them. Main statement: the
outcome is the same, and a cell is not run a second time unless an error has interrupted the first
run. What is put into a variable is not forced, and is read as it was given.
-/

namespace Numerals.Lazy

variable {s s' s₁ t : Store} {p : Param} {ps : List Param} {v w : Value} {vs ws : List Value}
  {o : Outcome} {name : String} {id : ℕ} {x y st next : State} {b : Builtin} {K : List Frame}

/-! ## Variables -/

/-- The transition from `st` puts the value `v` into the variable `id`. -/
def State.Writes (st : State) (id : ℕ) (v : Value) : Prop :=
  ∃ name position args, st.control = .supply name position [] (.writeVariable id v) args

@[simp] theorem release_references (s : Store) (id : ℕ) :
    (s.release id).references = s.references := by
  unfold Store.release
  split <;> rfl

theorem perform_references (s : Store) (K : List Frame) (op : Operation) (vs : List Value) :
    (perform s K op vs).store.references = s.references := by
  unfold perform
  split
  case h_9 => split <;> rfl
  all_goals rfl

theorem operate_references (s : Store) (K : List Frame) (scope : Scope) (op : Operation)
    (done : List Value) (rest : List Expr) :
    (operate s K scope op done rest).store.references = s.references := by
  cases rest with
  | nil => exact perform_references s K op done
  | cons e rest => rfl

theorem evaluate_references (s : Store) (K : List Frame) (scope : Scope) (e : Expr) :
    (evaluate s K scope e).store.references = s.references := by
  cases e with
  | var name =>
    rw [evaluate]
    split <;> rfl
  | builtin name =>
    rw [evaluate]
    split <;> rfl
  | operate op operands => exact operate_references s K scope op [] operands
  | _ => rfl

theorem force_references (s : Store) (K : List Frame) (v : Value) :
    (force s K v).store.references = s.references := by
  unfold force
  split
  · split
    case h_3 c _ => cases c <;> rfl
    all_goals rfl
  · rfl

theorem invoke_references (s : Store) (K : List Frame) (f : Callable) (args : List Value) :
    (invoke s K f args).store.references = s.references := by
  unfold invoke
  split <;> rfl

theorem applyForced_references (s : Store) (K : List Frame) (v : Value) (args : List Value) :
    (applyForced s K v args).store.references = s.references := by
  unfold applyForced
  split
  · split_ifs <;> rfl
  · rfl

theorem resume_references (s : Store) (K : List Frame) (v : Value) (f : Frame) :
    (resume s K v f).store.references = s.references := by
  cases f with
  | operands op done rest scope => exact operate_references s K scope op (done ++ [v]) rest
  | compute id =>
    rw [resume]
    split_ifs <;> rfl
  | operator args => exact applyForced_references s K v args
  | argument name position p ps f args =>
    rw [resume]
    split <;> rfl
  | _ => rfl

theorem returnError_references (s : Store) (K : List Frame) (e : Error) (f : Frame) :
    (returnError s K e f).store.references = s.references := by
  cases f with
  | compute id | settle id => exact release_references s id
  | _ => rfl

theorem raiseError_references (s : Store) (K : List Frame) (e : Error) (f : Frame) :
    (raiseError s K e f).store.references = s.references := by
  cases f with
  | compute id | settle id => exact release_references s id
  | handler h =>
    rw [raiseError]
    split_ifs <;> rfl
  | _ => rfl

theorem act_variable {a : Action} (hv : s.references[id]? = some v)
    (hwrite : ∀ w, a ≠ .writeVariable id w) : (act s K a).store.references[id]? = some v := by
  cases a with
  | newVariable w => exact List.getElem?_append_left (List.getElem?_eq_some_iff.mp hv).1 ▸ hv
  | writeVariable j w =>
    have hne : j ≠ id := by
      rintro rfl
      exact hwrite w rfl
    exact (List.getElem?_set_ne hne).trans hv
  | _ => exact hv

/-- A variable keeps its value in every transition that does not write it. -/
theorem step_variable (hstep : step st = some next) (hv : st.store.references[id]? = some v)
    (hwrite : ∀ w, ¬st.Writes id w) : next.store.references[id]? = some v := by
  obtain ⟨s, control, K⟩ := st
  -- all other transitions leave all variables alone
  have hsame (h : next.store.references = s.references) :
      next.store.references[id]? = some v := by
    rw [h]
    exact hv
  cases control with
  | eval e scope =>
    cases hstep
    exact hsame (evaluate_references s K scope e)
  | force w =>
    cases hstep
    exact hsame (force_references s K w)
  | apply f args =>
    cases hstep
    exact hv
  | invoke f args =>
    cases hstep
    exact hsame (invoke_references s K f args)
  | supply name position params f args =>
    cases hstep
    cases params with
    | nil =>
      refine act_variable hv ?_
      rintro w rfl
      exact hwrite w ⟨name, position, args, rfl⟩
    | cons p ps =>
      cases args with
      | nil => exact hsame (by cases p <;> rfl)
      | cons w rest => exact hsame (by cases p <;> rfl)
  | value w =>
    cases K with
    | nil => cases hstep
    | cons f K =>
      cases hstep
      exact hsame (resume_references s K w f)
  | fail e =>
    cases K with
    | nil => cases hstep
    | cons f K =>
      cases hstep
      exact hsame (returnError_references s K e f)
  | raise e =>
    cases K with
    | nil => cases hstep
    | cons f K =>
      cases hstep
      exact hsame (raiseError_references s K e f)

theorem Reaches.variable (h : Reaches x y) (hv : x.store.references[id]? = some v)
    (hwrite : ∀ z w, Reaches x z → Reaches z y → ¬z.Writes id w) :
    y.store.references[id]? = some v := by
  induction h using Relation.ReflTransGen.head_induction_on with
  | refl => exact hv
  | @head x z hstep hrest ih =>
    have hz := step_variable hstep hv fun w => hwrite x w .refl (.head hstep hrest)
    exact ih hz fun z' w hz' => hwrite z' w (.head hstep hz')

/-- What is put into a variable from the store `t` on is kept as it is given and is not forced, and
no more than that happens to the store. -/
structure Store.KeepsVariables (t : Store) : Prop where
  created : ∀ v, Evaluates t (Registry.builtins.call "newMutVar" [v])
    (.value (.reference t.references.length)) { t with references := t.references ++ [v] }
  written : ∀ w v id t', Evaluates t (.force w) (.value (.reference id)) t' →
    Evaluates t (Registry.builtins.call "writeMutVar" [w, v]) (.value .nil)
      { t' with references := t'.references.set id v }
  /-- A variable has the value that was last put into it. -/
  kept : ∀ c x y id v, Reaches ⟨t, c, []⟩ x → Reaches x y → x.store.references[id]? = some v →
    (∀ z w, Reaches x z → Reaches z y → ¬z.Writes id w) → y.store.references[id]? = some v
  read : ∀ w v id t', Evaluates t (.force w) (.value (.reference id)) t' →
    t'.references[id]? = some v →
    Evaluates t (Registry.builtins.call "readMutVar" [w]) (.value v) t'

theorem evaluates_newMutVar (t : Store) (v : Value) :
    Evaluates t (Registry.builtins.call "newMutVar" [v]) (.value (.reference t.references.length))
      { t with references := t.references ++ [v] } := by
  have hlen : [v].length = Builtin.newMutVar.arity := rfl
  exact Reaches.evaluates ((reaches_supply hlen).trans (.head rfl (.single rfl)))

theorem evaluates_writeMutVar (hforce : Evaluates s (.force w) (.value (.reference id)) s')
    (v : Value) :
    Evaluates s (Registry.builtins.call "writeMutVar" [w, v]) (.value .nil)
      { s' with references := s'.references.set id v } := by
  have hlen : [w, v].length = Builtin.writeMutVar.arity := rfl
  have hforced := hforce.reaches_frame (.argument "writeMutVar" 0 .reference [.any]
    Builtin.writeMutVar.act [v])
  -- the second argument is taken as it is
  exact Reaches.evaluates ((reaches_supply hlen).trans
    (.head rfl (hforced.trans (.head rfl (.head rfl (.single rfl))))))

theorem evaluates_readMutVar (hforce : Evaluates s (.force w) (.value (.reference id)) s') :
    Evaluates s (Registry.builtins.call "readMutVar" [w]) (.value (s'.references.getD id .nil))
      s' := by
  have hlen : [w].length = Builtin.readMutVar.arity := rfl
  have hforced := hforce.reaches_frame (.argument "readMutVar" 0 .reference []
    Builtin.readMutVar.act [])
  exact Reaches.evaluates ((reaches_supply hlen).trans
    (.head rfl (hforced.trans (.head rfl (.single rfl)))))

theorem keepsVariables (t : Store) : t.KeepsVariables where
  created := evaluates_newMutVar t
  written := by
    intro w v id t' hforce
    exact evaluates_writeMutVar hforce v
  kept := by
    intro c x y id v _ hxy hv hwrite
    exact hxy.variable hv hwrite
  read := by
    intro w v id t' hforce hv
    have hread := evaluates_readMutVar hforce
    rwa [List.getD_eq_getElem?_getD, hv, Option.getD_some] at hread

/-! ## Cells in place of values -/

/-- The arguments `ws` stand for the values `vs` of `params`: those that are checked are forced in
turn from the store `s` on, yield these values and leave the store `s'`. After one that is not taken
nothing is asked of the others. -/
inductive Deferred (params : List Param) (s : Store) (ws vs : List Value) (s' : Store) : Prop where
  | passed (h : Passes params s ws vs s')
  | refused {i : ℕ} {p : Param} {w v : Value} {s₁ : Store} (hparam : params[i]? = some p)
      (hp : p ≠ .any) (hw : ws[i]? = some w) (hv : vs[i]? = some v)
      (h : Passes (params.take i) s (ws.take i) (vs.take i) s₁)
      (hforce : Evaluates s₁ (.force w) (.value v) s') (hrefused : ¬p.Accepts v)

/-- Values that are no cells stand for themselves. -/
theorem Passes.self (h : Passes ps s ws vs s') (hvs : ∀ v ∈ vs, v.isCell = false) (t : Store) :
    Passes ps t vs vs t := by
  induction h with
  | nil => exact .nil t
  | kept v _ ih => exact .kept v (ih fun u hu => hvs u (List.mem_cons_of_mem v hu))
  | @forced _ _ _ _ _ _ v _ _ hp _ hv _ ih =>
    have hself := evaluates_force_self (s := t) (hvs v List.mem_cons_self)
    exact .forced hp hself hv (ih fun u hu => hvs u (List.mem_cons_of_mem v hu))

/-- An action whose outcome does not depend on the store. -/
def Action.Steady : Action → Prop
  | result _ | writeVariable _ _ => True
  | _ => False

theorem Action.Steady.exists_reaches {a : Action} (ha : a.Steady) (name : String) (position : ℕ) :
    ∃ o : Outcome, ∀ t, ∃ t',
      Reaches ⟨t, .supply name position [] a [], []⟩ ⟨t', o.control, []⟩ := by
  cases a with
  | result r =>
    obtain ⟨o, ho⟩ : ∃ o : Outcome, Control.ofResult r = o.control :=
      exists_outcome (by rcases r with (f | f) | v <;> rfl)
    refine ⟨o, fun t => ⟨t, .single ?_⟩⟩
    rw [← ho]
    rfl
  | writeVariable id v => exact ⟨.value .nil, fun t => ⟨_, .single rfl⟩⟩
  | _ => exact ha.elim

theorem Builtin.steady_act (hcatch : b ≠ .catchError) (hnew : b ≠ .newMutVar)
    (hread : b ≠ .readMutVar) : Curried.Every Action.Steady b.params b.act := by
  cases b with
  | catchError => exact absurd rfl hcatch
  | newMutVar => exact absurd rfl hnew
  | readMutVar => exact absurd rfl hread
  | addC | subC | imul | quot | eqWord64 | strEq | strOrd | writeMutVar => exact fun _ _ => trivial
  | integerAdd | integerSub | integerMul | integerCmp | integerPow => exact fun _ _ => trivial
  | _ => exact fun _ => trivial

theorem Passes.exists_reference (h : Passes [.reference] s ws vs s') :
    ∃ w id, ws = [w] ∧ vs = [.reference id] ∧
      Evaluates s (.force w) (.value (.reference id)) s' := by
  cases h with
  | @forced _ _ _ _ _ w v _ _ _ hforce hv hrest =>
    cases hrest
    obtain ⟨a, ha⟩ := hv.exists_check "readMutVar" 0
    cases v with
    | reference id => exact ⟨w, id, rfl, rfl, hforce⟩
    | _ => cases ha

/-- Behind the forces of its arguments, a call does what it does with their values. -/
theorem Passes.call_outcome (hcatch : b ≠ .catchError) (hnew : b ≠ .newMutVar)
    (hws : ws.length = b.arity) (hvs : vs.length = b.arity)
    (hcells : ∀ v ∈ vs, v.isCell = false) (h : Passes b.params s ws vs s') :
    ∃ o t, Evaluates s (Registry.builtins.call b.name ws) o t ∧
      Evaluates s' (Registry.builtins.call b.name vs) o t ∧
      ((b = .readMutVar → ∀ id, vs = [.reference id] →
          s.references[id]? = s'.references[id]?) →
        ∃ t', Evaluates s (Registry.builtins.call b.name vs) o t') := by
  by_cases hread : b = .readMutVar
  · subst hread
    obtain ⟨w, id, rfl, rfl, hforce⟩ := h.exists_reference
    refine ⟨_, _, evaluates_readMutVar hforce, evaluates_readMutVar (evaluates_force_self rfl), ?_⟩
    intro hsame
    refine ⟨s, ?_⟩
    rw [List.getD_eq_getElem?_getD, ← hsame rfl id rfl, ← List.getD_eq_getElem?_getD]
    exact evaluates_readMutVar (evaluates_force_self rfl)
  · obtain ⟨a, ha, hreach⟩ := h.acts (List.append_nil _).symm b.name b.act
    obtain ⟨o, ho⟩ := (ha _ (Builtin.steady_act hcatch hnew hread)).exists_reaches b.name
      b.params.length
    obtain ⟨t, ht⟩ := ho s'
    obtain ⟨t', ht'⟩ := ho s
    refine ⟨o, t, ?_, ?_, fun _ => ⟨t', ?_⟩⟩
    · exact Reaches.evaluates ((reaches_supply hws).trans ((hreach s ws s' h).trans ht))
    · exact Reaches.evaluates
        ((reaches_supply hvs).trans ((hreach s' vs s' (h.self hcells s')).trans ht))
    · exact Reaches.evaluates
        ((reaches_supply hvs).trans ((hreach s vs s (h.self hcells s)).trans ht'))

/-- An argument that is not taken is refused by its value. -/
theorem exists_call_refused {i : ℕ} (hws : ws.length = b.arity) (hvs : vs.length = b.arity)
    (hcells : ∀ v ∈ vs, v.isCell = false) (hparam : b.params[i]? = some p) (hp : p ≠ .any)
    (hw : ws[i]? = some w) (hv : vs[i]? = some v)
    (h : Passes (b.params.take i) s (ws.take i) (vs.take i) s₁)
    (hforce : Evaluates s₁ (.force w) (.value v) s') (hrefused : ¬p.Accepts v) :
    ∃ o, Evaluates s (Registry.builtins.call b.name ws) o s' ∧
      ∀ t, Evaluates t (Registry.builtins.call b.name vs) o t := by
  obtain ⟨e, hcheck, -⟩ := exists_refusal hp hrefused b.name i
  have hdrop (t : Store) (qs : List Param) (f : p.Carrier → Curried qs) (rest : List Value) :
      step ⟨t, (Outcome.value v).control, [.argument b.name i p qs f rest]⟩ =
        some ⟨t, (Outcome.failure (.returned (.fault e))).control, []⟩ :=
    step_argument_refused hcheck []
  refine ⟨_, (call_stops hws hparam hp hw h hforce (hdrop s')).1, ?_⟩
  intro t
  have hself := evaluates_force_self (s := t) (hcells v (List.mem_of_getElem? hv))
  have hpasses := h.self (fun u hu => hcells u (List.mem_of_mem_take hu)) t
  exact (call_stops hvs hparam hp hv hpasses hself (hdrop t)).1

/-- Let `ws` stand for the values `vs`, which are no cells, as the arguments of a built-in function
that neither runs code nor makes a variable.
* The call on `ws` has the outcome that the call on `vs` has in the store that the forces have left,
  and it leaves the same store. The call on `vs` has this outcome in the first store, too, unless a
  variable is read that the forces have changed.
* In the call on `ws` no computation is started again once it has completed, and it is started a
  second time only if it has been interrupted.
* Values are put into variables and read from them without being forced. -/
theorem call_deferred (hcatch : b ≠ .catchError) (hnew : b ≠ .newMutVar)
    (hws : ws.length = b.arity) (hvs : vs.length = b.arity)
    (hcells : ∀ v ∈ vs, v.isCell = false) (h : Deferred b.params s ws vs s') :
    (∃ o t, Evaluates s (Registry.builtins.call b.name ws) o t ∧
      Evaluates s' (Registry.builtins.call b.name vs) o t ∧
      ((b = .readMutVar → ∀ id, vs = [.reference id] →
          s.references[id]? = s'.references[id]?) →
        ∃ t', Evaluates s (Registry.builtins.call b.name vs) o t')) ∧
    (∀ id x y, Reaches ⟨s, Registry.builtins.call b.name ws, []⟩ x →
      Relation.TransGen (fun st next => step st = some next) x y → Starts id y →
      ¬Completes id x ∧
      (Starts id x → ∃ z, Reaches x z ∧ Reaches z y ∧ Interrupts id z)) ∧
    ∀ t : Store, t.KeepsVariables := by
  refine ⟨?_, ?_, keepsVariables⟩
  · cases h with
    | passed h => exact h.call_outcome hcatch hnew hws hvs hcells
    | refused hparam hp hw hv h hforce hrefused =>
      obtain ⟨o, hcall, hself⟩ :=
        exists_call_refused hws hvs hcells hparam hp hw hv h hforce hrefused
      exact ⟨o, s', hcall, hself s', fun _ => ⟨s, hself s⟩⟩
  · intro id x y hx hxy hy
    refine ⟨?_, ?_⟩
    · intro hcompletes
      exact hx.not_starts_of_completes hcompletes hxy hy
    · intro hstarts
      exact hx.exists_interrupts hstarts hxy hy

/-- Two cells that force each other, the second of which catches the error that comes of it, and a
cell that changes a variable and yields it. -/
def deferralStore : Store where
  cells :=
    [.pending (.expression "a" false
        (.operate .seq [.operate .force [.var "b"], .constant (.int 3)]) []),
      .pending (.expression "b" false
        (.operate .catchError [.var "a", .lambda "h" ["e"] (.constant (.int 7))]) []),
      .pending (.expression "c" false
        (.operate .seq [.operate (.call "writeMutVar") [.var "m", .constant (.int 5)], .var "m"])
        [])]
  references := [.int 1]
  globals := [("a", .cell 0), ("b", .cell 1), ("m", .reference 0)]
  counters := []
  log := []

/-- A cell that is both arguments of a quotient is run once. -/
theorem call_deferred_shared :
    ∃ o t t', Evaluates deferralStore (Registry.builtins.call "quot" [.cell 1, .cell 1]) o t ∧
      Evaluates deferralStore (Registry.builtins.call "quot" [.int 7, .int 7]) o t' ∧
      o = .value (.constant (.int32 1)) ∧ t.log.count "run b" = 1 := by
  have hfirst : Evaluates deferralStore (.force (.cell 1)) (.value (.int 7))
      (run 30 ⟨deferralStore, .force (.cell 1), []⟩).store := ⟨30, rfl, rfl⟩
  have hagain : Evaluates (run 30 ⟨deferralStore, .force (.cell 1), []⟩).store (.force (.cell 1))
      (.value (.int 7)) (run 30 ⟨deferralStore, .force (.cell 1), []⟩).store := ⟨5, rfl, rfl⟩
  have hpasses : Passes Builtin.quot.params deferralStore [.cell 1, .cell 1] [.int 7, .int 7] _ :=
    .forced (by decide) hfirst (by decide) (.forced (by decide) hagain (by decide) (.nil _))
  have hrun : Evaluates deferralStore (Registry.builtins.call "quot" [.cell 1, .cell 1])
      (.value (.constant (.int32 1)))
      (run 60 ⟨deferralStore, Registry.builtins.call "quot" [.cell 1, .cell 1], []⟩).store :=
    ⟨60, rfl, rfl⟩
  obtain ⟨⟨o, t, hws, -, hvs⟩, -⟩ := call_deferred (b := .quot) (by decide) (by decide) rfl rfl
    (by decide) (.passed hpasses)
  obtain ⟨t', ht'⟩ := hvs nofun
  obtain ⟨rfl, rfl⟩ := hrun.unique hws
  exact ⟨_, _, t', hws, ht', rfl, by decide⟩

/-- A variable that is given as a cell may be changed by the force of the cell, and its new value is
read then. A cell may be run twice, where an error has interrupted it and is caught. -/
theorem call_deferred_interrupted :
    (∃ t t', Evaluates deferralStore (.force (.cell 2)) (.value (.reference 0)) t ∧
      Evaluates deferralStore (Registry.builtins.call "readMutVar" [.cell 2]) (.value (.int 5)) t' ∧
      Evaluates deferralStore (Registry.builtins.call "readMutVar" [.reference 0]) (.value (.int 1))
        deferralStore) ∧
    ∃ t t' t'', Evaluates deferralStore (.force (.cell 1)) (.value (.int 7)) t ∧
      Evaluates t (.force (.cell 0)) (.value (.int 3)) t' ∧
      Evaluates deferralStore (Registry.builtins.call "quot" [.cell 1, .cell 0])
        (.value (.constant (.int32 2))) t'' ∧
      t''.log = ["run b", "run a", "call h", "run a"] :=
  ⟨⟨_, _, ⟨30, rfl, rfl⟩, ⟨40, rfl, rfl⟩, ⟨10, rfl, rfl⟩⟩,
    _, _, _, ⟨30, rfl, rfl⟩, ⟨30, rfl, rfl⟩, ⟨60, rfl, rfl⟩, rfl⟩

end Numerals.Lazy
