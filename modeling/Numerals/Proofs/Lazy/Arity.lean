import Numerals.Lazy.Program
import Numerals.Proofs.Lazy.Application
import Numerals.Proofs.Lazy.Saturation

/-!
# The arity of callables

In a session, values are applied, actions are run with handlers, primitives are called by their
names and expressions are evaluated, one request after the other, each with values that earlier
ones have returned. Main statement: whatever the requests are and however many arguments they have,
callables are given fewer arguments than they take, arguments given in turn count down the arity of
the callable they are given to, and a primitive is called with as many arguments as it takes, in the
order in which they were given.
-/

namespace Numerals.Lazy

variable {s s' s₁ : Store} {u v : Value} {held vs args xs : List Value} {xss : List (List Value)}
  {f : Callable} {K : List Frame} {st next : State} {r : Registry}

/-! ## Arguments given in turn -/

namespace Callable

/-- The primitive to which the arguments of a callable are given. -/
def base : Callable → Callable
  | primitive name n code => primitive name n code
  | given f _ => f.base

/-- The arguments that are given to a primitive, in their order. -/
def supplied : Callable → List Value
  | primitive .. => []
  | given f args => f.supplied ++ args

/-- The callable to which lists of arguments are given, one after the other. -/
def givenInTurn (f : Callable) (xss : List (List Value)) : Callable :=
  xss.foldl .given f

theorem arity_add_length_supplied (f : Callable) :
    f.arity + f.supplied.length = f.base.arity := by
  fun_induction base f with
  | case1 name n code => simp [supplied]
  | case2 f args ih =>
    rw [← ih, supplied, List.length_append]
    change f.arity - args.length + _ = _
    omega

theorem arity_givenInTurn (f : Callable) (xss : List (List Value)) :
    (f.givenInTurn xss).arity = f.arity - xss.flatten.length := by
  induction xss generalizing f with
  | nil => simp [givenInTurn]
  | cons xs xss ih =>
    have harity : (Callable.given f xs).arity = f.arity - xs.length := rfl
    rw [List.flatten_cons, List.length_append]
    have hrest := ih (.given f xs)
    change (givenInTurn (.given f xs) xss).arity = _
    omega

end Callable

/-- The value `v` is what remains after `u` is applied to some arguments, the result to further
ones, and so on, from the store `s` on. -/
def InTurn (s : Store) (u : Value) : List (List Value) → Value → Store → Prop
  | [], v, s' => v = u ∧ s' = s
  | xs :: xss, v, s' => ∃ w s₁, Evaluates s (.apply u xs) (.value w) s₁ ∧ InTurn s₁ w xss v s'

theorem inTurn_callable_iff (hlen : xss.flatten.length < f.arity) :
    InTurn s (.callable f) xss v s' ↔ v = .callable (f.givenInTurn xss) ∧ s' = s := by
  induction xss generalizing f with
  | nil => rfl
  | cons xs xss ih =>
    rw [List.flatten_cons, List.length_append] at hlen
    -- after the first list, as many fewer arguments are too few as before
    have harity : (Callable.given f xs).arity = f.arity - xs.length := rfl
    have hrest := ih (f := .given f xs) (by omega)
    rw [InTurn]
    simp only [evaluates_apply_iff, applies_few_iff (show xs.length < f.arity by omega)]
    constructor
    · rintro ⟨w, s₁, ⟨hw, rfl⟩, hturn⟩
      cases hw
      exact hrest.mp hturn
    · intro h
      exact ⟨_, _, ⟨rfl, rfl⟩, hrest.mpr h⟩

/-- As long as there are too few arguments, nothing happens after the first force. -/
theorem inTurn_iff (hforce : Evaluates s (.force u) (.value (.callable f)) s₁)
    (hlen : (xs :: xss).flatten.length < f.arity) :
    InTurn s u (xs :: xss) v s' ↔ v = .callable (f.givenInTurn (xs :: xss)) ∧ s' = s₁ := by
  rw [← inTurn_callable_iff hlen, InTurn, InTurn]
  simp only [evaluates_apply_iff, applies_forced_iff hforce rfl]

/-! ## Calls of primitives -/

/-- A call of a callable comes to a call of its primitive with all arguments in their order. -/
theorem reaches_base (f : Callable) (hlen : args.length = f.arity) :
    Reaches ⟨s, .invoke f args, K⟩ ⟨s, .invoke f.base (f.supplied ++ args), K⟩ := by
  fun_induction Callable.base f generalizing args with
  | case1 name n code => exact .refl
  | case2 f first ih =>
    have harity : (Callable.given f first).arity = f.arity - first.length := rfl
    have hall : (first ++ args).length = f.arity := by
      rw [List.length_append]
      omega
    have happlied : step ⟨s, .value (.callable f), .operator (first ++ args) :: K⟩ =
        some ⟨s, .invoke f (first ++ args), K⟩ := congrArg some (if_pos hall)
    -- the call applies the callable in it, which is forced, and called with all arguments
    rw [Callable.supplied, List.append_assoc]
    exact .head rfl (.head rfl (.head rfl (.head happlied (ih hall))))

/-- The stack on which a callable is called: arguments that it does not take are left for later. -/
def surplusOn (K : List Frame) (f : Callable) (args : List Value) : List Frame :=
  if args.length = f.arity then K else .surplus (args.drop f.arity.toNat) :: K

/-- With enough arguments, a callable is called with as many as it takes. -/
theorem step_operator (hlen : f.arity ≤ args.length) :
    step ⟨s, .value (.callable f), .operator args :: K⟩ =
      some ⟨s, .invoke f (args.take f.arity.toNat), surplusOn K f args⟩ := by
  change some (applyForced s K (.callable f) args) = _
  unfold applyForced surplusOn
  dsimp only
  split
  · rw [List.take_of_length_le (by omega)]
  · rw [if_neg (by omega)]

theorem reaches_call (hf : (Value.callable f).Sound) (hlen : f.arity ≤ args.length) :
    Reaches ⟨s, .value (.callable f), .operator args :: K⟩
        ⟨s, .invoke f.base (f.supplied ++ args.take f.arity.toNat), surplusOn K f args⟩ ∧
      (f.supplied ++ args.take f.arity.toNat).length = f.base.arity := by
  have hnonneg := arity_nonneg hf
  have htake : (args.take f.arity.toNat).length = f.arity := by
    rw [List.length_take]
    omega
  constructor
  · exact .head (step_operator hlen) (reaches_base f htake)
  · have hbase := f.arity_add_length_supplied
    rw [List.length_append]
    omega

/-! ## Where calls come from -/

/-- Whether the control calls a callable. -/
def Control.isInvoke : Control → Bool
  | invoke .. => true
  | _ => false

theorem isInvoke_ofResult (r : Result Value) : (Control.ofResult r).isInvoke = false := by
  rcases r with (e | e) | v <;> rfl

theorem isInvoke_perform (s : Store) (K : List Frame) (op : Operation) (vs : List Value) :
    (perform s K op vs).control.isInvoke = false := by
  unfold perform
  split
  case h_9 => split <;> rfl
  case h_15 => exact isInvoke_ofResult _
  case h_17 =>
    simp only [Control.call]
    split <;> rfl
  all_goals rfl

theorem isInvoke_evaluate (s : Store) (K : List Frame) (scope : Scope) (e : Expr) :
    (evaluate s K scope e).control.isInvoke = false := by
  cases e with
  | var name | builtin name =>
    rw [evaluate]
    split <;> rfl
  | native name arity =>
    simp only [evaluate, Control.native]
    split <;> rfl
  | operate op operands =>
    cases operands with
    | nil => exact isInvoke_perform s K op []
    | cons e rest => rfl
  | _ => rfl

theorem isInvoke_force (s : Store) (K : List Frame) (v : Value) :
    (force s K v).control.isInvoke = false := by
  unfold force
  split
  · split
    case h_3 comp _ =>
      cases comp with
      | expression => rfl
      | rendering x o => exact isInvoke_ofResult _
    all_goals rfl
  · rfl

theorem isInvoke_invoke (s : Store) (K : List Frame) (f : Callable) (args : List Value) :
    (invoke s K f args).control.isInvoke = false := by
  unfold invoke
  split <;> rfl

theorem isInvoke_act (s : Store) (K : List Frame) (action : Action) :
    (act s K action).control.isInvoke = false := by
  cases action with
  | result r => exact isInvoke_ofResult r
  | _ => rfl

theorem isInvoke_supply (s : Store) (K : List Frame) (name : String) (position : ℕ)
    (params : List Param) (g : Curried params) (args : List Value) :
    (supply s K name position params g args).control.isInvoke = false := by
  unfold supply
  split
  · exact isInvoke_act s K _
  all_goals rfl

theorem isInvoke_resume (s : Store) (K : List Frame) (v : Value) {x : Frame}
    (hx : ∀ args, x ≠ .operator args) : (resume s K v x).control.isInvoke = false := by
  cases x with
  | operands op done rest scope =>
    cases rest with
    | nil => exact isInvoke_perform s K op (done ++ [v])
    | cons e rest => rfl
  | compute id | argument =>
    rw [resume]
    split <;> rfl
  | operator args => exact absurd rfl (hx args)
  | _ => rfl

theorem isInvoke_returnError (s : Store) (K : List Frame) (e : Error) (x : Frame) :
    (returnError s K e x).control.isInvoke = false := by
  cases x <;> rfl

theorem isInvoke_raiseError (s : Store) (K : List Frame) (e : Error) (x : Frame) :
    (raiseError s K e x).control.isInvoke = false := by
  cases x with
  | handler h =>
    rw [raiseError]
    split <;> rfl
  | _ => rfl

/-- A callable is called only where it is applied, with the first of these arguments. -/
theorem step_invoke (hstep : step st = some next) (hcall : next.control = .invoke f args) :
    ∃ all K, st.control = .value (.callable f) ∧ st.stack = .operator all :: K ∧
      args = all.take f.arity.toNat := by
  have hinvoke : next.control.isInvoke = true := by rw [hcall]; rfl
  -- all transitions but those of operators lead to another control
  have hother (h : next.control.isInvoke = false) : False := by
    rw [hinvoke] at h
    cases h
  obtain ⟨s, control, stack⟩ := st
  cases control with
  | eval e scope =>
    cases hstep
    exact (hother (isInvoke_evaluate s stack scope e)).elim
  | force v =>
    cases hstep
    exact (hother (isInvoke_force s stack v)).elim
  | apply g args =>
    cases hstep
    cases hinvoke
  | invoke g args =>
    cases hstep
    exact (hother (isInvoke_invoke s stack g args)).elim
  | supply name position params g args =>
    cases hstep
    exact (hother (isInvoke_supply s stack name position params g args)).elim
  | value v =>
    cases stack with
    | nil => cases hstep
    | cons x K =>
      cases hstep
      cases x with
      | operator all =>
        change (applyForced s K v all).control = _ at hcall
        unfold applyForced at hcall
        split at hcall
        · split at hcall
          · cases hcall
            exact ⟨args, K, rfl, rfl, (List.take_of_length_le (by omega)).symm⟩
          · split at hcall
            · cases hcall
            · cases hcall
              exact ⟨all, K, rfl, rfl, rfl⟩
        · cases hcall
      | _ => exact (hother (isInvoke_resume s K v (by simp))).elim
  | fail e =>
    cases stack with
    | nil => cases hstep
    | cons x K =>
      cases hstep
      exact (hother (isInvoke_returnError s K e x)).elim
  | raise e =>
    cases stack with
    | nil => cases hstep
    | cons x K =>
      cases hstep
      exact (hother (isInvoke_raiseError s K e x)).elim

/-! ## Sessions -/

/-- A registry that is built from the built-in functions, from primitives that are registered, and
from callables among the given values. -/
inductive Registry.Built (held : List Value) : Registry → Prop where
  | empty : Built held .empty
  | builtins : Built held .builtins
  | register {r r' : Registry} {name : String} {n : Int} (h : Built held r)
      (hr : r.register name n = .ok r') : Built held r'
  | insert {r : Registry} {f : Callable} (h : Built held r) (name : String)
      (hf : .callable f ∈ held) : Built held ⟨r.entries ++ [(name, f)]⟩

/-- What is asked for in a session: to apply a value, to run an action with a handler for its errors,
to call a primitive by its name, or to evaluate an expression. -/
inductive Request where
  | apply (f : Value) (args : List Value)
  | catchError (action h : Value)
  | call (r : Registry) (name : String) (args : List Value)
  | evaluate (e : Expr) (scope : Scope)

namespace Request

/-- The state in which the machine begins with a request. -/
def begin (s : Store) : Request → State
  | apply f args => ⟨s, .apply f args, []⟩
  | catchError action h => ⟨s, .apply action [], [.handler h]⟩
  | call r name args => ⟨s, r.call name args, []⟩
  | evaluate e scope => ⟨s, .eval e scope, []⟩

/-- The values that a request names. -/
def values : Request → List Value
  | apply f args => f :: args
  | catchError action h => [action, h]
  | call _ _ args => args
  | evaluate _ scope => Scope.values scope

/-- A request is made with values that were returned before and with those that have no others in
them, such as numbers, texts and errors. -/
def Uses (held : List Value) (q : Request) : Prop :=
  (∀ v ∈ q.values, v.isPlain = true ∨ v ∈ held) ∧
  match q with
  | call r _ _ => r.Built held
  | _ => True

end Request

/-- The states of sessions, and the values that the evaluations before them have returned. -/
inductive InSession : List Value → State → Prop where
  | start : InSession [] ⟨.empty, .value .nil, []⟩
  | step {held : List Value} {st next : State} (h : InSession held st)
      (hstep : Lazy.step st = some next) : InSession held next
  /-- The value of an evaluation can be used from now on. -/
  | keep {held : List Value} {st : State} {v : Value} (h : InSession held st)
      (ho : st.outcome? = some (.value v)) : InSession (v :: held) st
  /-- A value gets a global name. -/
  | bind {held : List Value} {st : State} {v : Value} (h : InSession held st) (name : String)
      (hv : v ∈ held) : InSession held { st with store := st.store.bindGlobal name v }
  /-- After an evaluation there is a request. The log may have been read and emptied. -/
  | request {held : List Value} {st : State} {o : Outcome} (h : InSession held st)
      (ho : st.outcome? = some o) (log : List String) (q : Request) (hq : q.Uses held) :
      InSession held (q.begin { st.store with log })

theorem InSession.run (h : InSession held st) (n : ℕ) : InSession held (Lazy.run n st) := by
  induction n generalizing st with
  | zero => exact h
  | succ n ih =>
    rw [Lazy.run]
    split
    · rename_i next hstep
      exact ih (h.step hstep)
    · exact h

theorem Registry.Built.sound (h : r.Built held) (hheld : ∀ v ∈ held, v.Sound) :
    ∀ x ∈ r.entries, (Value.callable x.2).Sound := by
  induction h with
  | empty => simp [Registry.empty]
  | builtins =>
    intro x hx
    obtain ⟨b, -, rfl⟩ := List.mem_map.mp hx
    exact sound_builtin b
  | @register r r' name n _ hr ih =>
    unfold Registry.register at hr
    split at hr
    · cases hr
    · split at hr
      · cases hr
      · cases hr
        refine List.forall_mem_append.mpr ⟨ih, ?_⟩
        simpa using sound_native name n.toNat
  | insert _ name hf ih =>
    refine List.forall_mem_append.mpr ⟨ih, ?_⟩
    simpa using hheld _ hf

theorem Request.Uses.sound {q : Request} (hq : q.Uses held) (hheld : ∀ v ∈ held, v.Sound)
    (hs : s.Sound) : (q.begin s).Sound := by
  obtain ⟨hvalues, hregistry⟩ := hq
  have hsound : ∀ v ∈ q.values, v.Sound := by
    intro v hv
    rcases hvalues v hv with hplain | hmem
    · exact sound_of_isPlain hplain
    · exact hheld v hmem
  cases q with
  | apply f args =>
    obtain ⟨hf, hargs⟩ := List.forall_mem_cons.mp hsound
    exact ⟨hs, Control.sound_apply hf hargs, List.forall_mem_nil _⟩
  | catchError action h =>
    obtain ⟨haction, hh⟩ := List.forall_mem_cons.mp hsound
    exact ⟨hs, Control.sound_apply haction (by simp), sound_cons ⟨hh, trivial⟩ (by simp)⟩
  | call r name args =>
    refine ⟨hs, ?_, List.forall_mem_nil _⟩
    change (r.call name args).Sound
    unfold Registry.call
    split
    · rename_i f hlookup
      obtain ⟨before, after, hentries, -⟩ := List.lookup_eq_some_iff.mp hlookup
      refine Control.sound_apply (hregistry.sound hheld (name, f) ?_) hsound
      simp [hentries]
    · exact Control.sound_fail _
  | evaluate e scope => exact ⟨hs, Control.sound_eval e hsound, List.forall_mem_nil _⟩

/-- All states of a session are sound, and so are the values that it returns. -/
theorem InSession.sound (h : InSession held st) : st.Sound ∧ ∀ v ∈ held, v.Sound := by
  induction h with
  | start =>
    refine ⟨⟨?_, Control.sound_value (sound_of_isPlain rfl), by simp⟩, by simp⟩
    intro v hv
    cases hv
  | step _ hstep ih => exact ⟨ih.1.step hstep, ih.2⟩
  | @keep held st v _ ho ih =>
    obtain ⟨s, control, stack⟩ := st
    have hcontrol : control = .value v := (outcome?_eq_some_iff.mp ho).1
    refine ⟨ih.1, List.forall_mem_cons.mpr ⟨ih.1.control.1 v ?_, ih.2⟩⟩
    simp [hcontrol, Control.values]
  | bind _ name hv ih =>
    refine ⟨⟨?_, ih.1.control, ih.1.stack⟩, ih.2⟩
    obtain ⟨hcells, hreferences, hglobals⟩ := Store.sound_iff.mp ih.1.store
    exact Store.sound_iff.mpr
      ⟨hcells, hreferences, List.forall_mem_cons.mpr ⟨ih.2 _ hv, hglobals⟩⟩
  | request _ _ log q hq ih => exact ⟨hq.sound ih.2 ih.1.store, ih.2⟩

/-! ## The discipline of arities -/

/-- What holds in a state, and of values that were returned before it. -/
structure KeepsArity (held : List Value) (st : State) : Prop where
  /-- A callable has fewer arguments given than it takes. -/
  given : ∀ v ∈ held ++ st.values, ∀ f args, (Value.callable (.given f args)).Within v →
    args.length < f.arity ∧ 1 ≤ (Callable.given f args).arity
  /-- If there are too few arguments in all, to apply a callable to them in turn gives them to it,
  and it takes as many fewer. -/
  inTurn : ∀ u f s, Evaluates st.store (.force u) (.value (.callable f)) s →
    ∀ xs xss, (xs :: xss).flatten.length < f.arity →
      (f.givenInTurn (xs :: xss)).arity = f.arity - (xs :: xss).flatten.length ∧
      ∀ v s', InTurn st.store u (xs :: xss) v s' ↔
        v = .callable (f.givenInTurn (xs :: xss)) ∧ s' = s
  /-- A primitive is called with as many arguments as it takes, and as its code has parameters. -/
  invoked : ∀ name n code args, st.control = .invoke (.primitive name n code) args →
    args.length = n ∧ (Callable.primitive name n code).Proper
  /-- A built-in function has an argument left for each parameter. -/
  supplied : ∀ name position params g args,
    st.control = .supply name position params g args → args.length = params.length
  /-- Where a callable is applied to enough arguments, its primitive is called with those that were
  given to it, in their order, followed by the first of the new ones. -/
  applied : ∀ f args K, st.control = .value (.callable f) → st.stack = .operator args :: K →
    f.arity ≤ args.length →
      (f.supplied ++ args.take f.arity.toNat).length = f.base.arity ∧
      Reaches st ⟨st.store, .invoke f.base (f.supplied ++ args.take f.arity.toNat),
        surplusOn K f args⟩
  /-- There are no other calls. -/
  called : ∀ next f args, step st = some next → next.control = .invoke f args →
    ∃ all K, st.control = .value (.callable f) ∧ st.stack = .operator all :: K ∧
      args = all.take f.arity.toNat

/-- Arities are kept throughout a session, whatever is asked for and with however many arguments. -/
theorem session_arity (h : InSession held st) : KeepsArity held st where
  given := by
    intro v hv f args hwithin
    have hsound : v.Sound := by
      rcases List.mem_append.mp hv with hheld | hstate
      · exact h.sound.2 v hheld
      · exact h.sound.1.values v hstate
    have hlen : args.length < f.arity := hsound _ hwithin
    have harity : (Callable.given f args).arity = f.arity - args.length := rfl
    omega
  inTurn := by
    intro u f s hforce xs xss hlen
    refine ⟨f.arity_givenInTurn _, ?_⟩
    intro v s'
    exact inTurn_iff hforce hlen
  invoked := by
    intro name n code args hcontrol
    obtain ⟨hvalues, hcalled⟩ := h.sound.1.control
    rw [hcontrol] at hvalues hcalled
    exact ⟨Int.ofNat.inj hcalled, hvalues _ List.mem_cons_self _ .refl⟩
  supplied := by
    intro name position params g args hcontrol
    have hcalled := h.sound.1.control.2
    rw [hcontrol] at hcalled
    exact hcalled.1
  applied := by
    intro f args K hcontrol hstack hlen
    obtain ⟨s, control, stack⟩ := st
    cases hcontrol
    cases hstack
    have hf : (Value.callable f).Sound := h.sound.1.control.1 _ (by simp [Control.values])
    exact (reaches_call hf hlen).symm
  called := by
    intro next f args hstep hcall
    exact step_invoke hstep hcall

/-- A primitive that takes three arguments. -/
def ternary : Callable := .primitive "f" 3 .native

/-- The primitive with one argument given, and then another one. -/
def ternaryOfTwo : Callable := .given (.given ternary [.int 1]) [.int 2]

/-- The primitive is made, gets an argument by an application and another one by a call by name.
When it is applied to two more, it is called with three arguments, and one is left over. -/
theorem session_arity_ternary :
    InSession [.callable ternaryOfTwo, .callable (.given ternary [.int 1]), .callable ternary]
      ⟨.empty, .value (.callable ternaryOfTwo), [.operator [.int 3, .int 4]]⟩ ∧
    ternaryOfTwo.arity = 1 ∧
    Reaches ⟨.empty, .value (.callable ternaryOfTwo), [.operator [.int 3, .int 4]]⟩
      ⟨.empty, .invoke ternary [.int 1, .int 2, .int 3], [.surplus [.int 4]]⟩ := by
  have hmade : InSession [.callable ternary] ⟨.empty, .value (.callable ternary), []⟩ := by
    refine .keep ((InSession.start.request rfl [] (.evaluate (.native "f" 3) []) ?_).run 1) rfl
    simp [Request.Uses, Request.values, Scope.values]
  have hone : InSession [.callable (.given ternary [.int 1]), .callable ternary]
      ⟨.empty, .value (.callable (.given ternary [.int 1])), []⟩ := by
    refine .keep ((hmade.request rfl [] (.apply (.callable ternary) [.int 1]) ?_).run 3) rfl
    simp [Request.Uses, Request.values, Value.isPlain]
  have htwo : InSession
      [.callable ternaryOfTwo, .callable (.given ternary [.int 1]), .callable ternary]
      ⟨.empty, .value (.callable ternaryOfTwo), []⟩ := by
    refine .keep ((hone.request rfl []
      (.call ⟨[("g", .given ternary [.int 1])]⟩ "g" [.int 2]) ⟨?_, ?_⟩).run 3) rfl
    · simp [Request.values, Value.isPlain]
    · exact .insert .empty "g" List.mem_cons_self
  have happlied : InSession
      [.callable ternaryOfTwo, .callable (.given ternary [.int 1]), .callable ternary]
      ⟨.empty, .value (.callable ternaryOfTwo), [.operator [.int 3, .int 4]]⟩ := by
    refine (htwo.request rfl [] (.apply (.callable ternaryOfTwo) [.int 3, .int 4]) ?_).run 2
    simp [Request.Uses, Request.values, Value.isPlain]
  have hkeeps := session_arity happlied
  exact ⟨happlied, rfl, (hkeeps.applied _ _ _ rfl rfl (by decide)).2⟩

end Numerals.Lazy
