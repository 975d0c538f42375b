import Numerals.Lazy.Machine
import Mathlib.Data.List.Basic

/-!
# Calls with all arguments

A callable with arguments given must have fewer of them than the callable in it takes, and a
primitive must take as many as its code. A value is sound if this holds of every callable in it, and
a state is sound if its values are, if it calls callables with as many arguments as they take, and if
built-in functions that are being supplied have an argument left for each parameter. Main statement:
every transition from a sound state leads to a sound one, so that a call is short of no argument and
has none to spare.
-/

namespace Numerals.Lazy

variable {u v : Value} {vs args items : List Value} {f : Callable} {scope : Scope} {s : Store}
  {K : List Frame} {st next : State}

/-! ## Values within values -/

/-- The value `u` stands within a value: it is the value itself, or it is within an item of a list,
within a callable to which arguments are given, within one of these arguments, or within what a
function has captured. -/
inductive Value.Within (u : Value) : Value → Prop where
  | refl : Within u u
  | item {items : List Value} {v : Value} (hv : v ∈ items) (h : Within u v) : Within u (.list items)
  | inner {f : Callable} {args : List Value} (h : Within u (.callable f)) :
      Within u (.callable (.given f args))
  | argument {f : Callable} {args : List Value} {v : Value} (hv : v ∈ args) (h : Within u v) :
      Within u (.callable (.given f args))
  | captured {name : String} {n : ℕ} {params : List String} {body : Expr} {scope : Scope}
      {x : String × Value} (hx : x ∈ scope) (h : Within u x.2) :
      Within u (.callable (.primitive name n (.closure params body scope)))

/-- A primitive takes as many arguments as its code, and a callable to which arguments are given
takes more than these. -/
def Callable.Proper : Callable → Prop
  | primitive _ n (.builtin b) => n = b.arity
  | primitive _ _ .native => True
  | primitive _ n (.closure params _ _) => n = params.length
  | given f args => args.length < f.arity

/-- All callables within the value are proper. -/
def Value.Sound (v : Value) : Prop :=
  ∀ f, (Value.callable f).Within v → f.Proper

/-- Whether no other value stands within a value. -/
def Value.isPlain : Value → Bool
  | list _ | callable _ => false
  | _ => true

theorem sound_of_isPlain (h : v.isPlain = true) : v.Sound := by
  rintro f hwithin
  cases hwithin <;> cases h

theorem sound_list_iff : (Value.list items).Sound ↔ ∀ v ∈ items, v.Sound := by
  constructor
  · intro h v hv f hwithin
    exact h f (.item hv hwithin)
  · rintro h f hwithin
    cases hwithin with
    | item hv hwithin => exact h _ hv f hwithin

theorem sound_given_iff :
    (Value.callable (.given f args)).Sound ↔
      args.length < f.arity ∧ (Value.callable f).Sound ∧ ∀ v ∈ args, v.Sound := by
  constructor
  · intro h
    refine ⟨h _ .refl, ?_, ?_⟩
    · intro g hwithin
      exact h g (.inner hwithin)
    · intro v hv g hwithin
      exact h g (.argument hv hwithin)
  · rintro ⟨hlen, hf, hargs⟩ g hwithin
    cases hwithin with
    | refl => exact hlen
    | inner hwithin => exact hf g hwithin
    | argument hv hwithin => exact hargs _ hv g hwithin

theorem sound_closure_iff {name : String} {n : ℕ} {params : List String} {body : Expr} :
    (Value.callable (.primitive name n (.closure params body scope))).Sound ↔
      n = params.length ∧ ∀ x ∈ scope, x.2.Sound := by
  constructor
  · intro h
    refine ⟨h _ .refl, ?_⟩
    intro x hx g hwithin
    exact h g (.captured hx hwithin)
  · rintro ⟨hlen, hscope⟩ g hwithin
    cases hwithin with
    | refl => exact hlen
    | captured hx hwithin => exact hscope _ hx g hwithin

theorem arity_nonneg (hf : (Value.callable f).Sound) : 0 ≤ f.arity := by
  cases f with
  | primitive name n code => exact Int.natCast_nonneg n
  | given g args =>
    have hlen : args.length < g.arity := hf _ .refl
    change 0 ≤ g.arity - args.length
    omega

theorem sound_native (name : String) (n : ℕ) :
    (Value.callable (.primitive name n .native)).Sound := by
  rintro g hwithin
  cases hwithin
  trivial

theorem sound_builtin (b : Builtin) : (Value.callable b.primitive).Sound := by
  rintro g hwithin
  cases hwithin
  rfl

/-! ## Values of states -/

/-- The values of a scope. -/
def Scope.values (scope : Scope) : List Value :=
  scope.map (·.2)

/-- The values that a cell holds, or that its computation has captured. -/
def Cell.values : Cell → List Value
  | pending (.expression _ _ _ scope) | running (.expression _ _ _ scope) => Scope.values scope
  | pending (.rendering ..) | running (.rendering ..) => []
  | evaluated v => [v]

/-- The values in a store. -/
def Store.values (s : Store) : List Value :=
  s.cells.flatMap Cell.values ++ s.references ++ Scope.values s.globals

/-- The values that the control names. -/
def Control.values : Control → List Value
  | eval _ scope => Scope.values scope
  | force v | value v => [v]
  | apply f args => f :: args
  | invoke f args => .callable f :: args
  | supply _ _ _ _ args => args
  | fail _ | raise _ => []

/-- The values that a frame names. -/
def Frame.values : Frame → List Value
  | operands _ done _ scope => done ++ Scope.values scope
  | bind _ _ scope => Scope.values scope
  | operator args | surplus args | argument _ _ _ _ _ args => args
  | handler h => [h]
  | compute _ | settle _ | insist => []

/-- The values of a state. What a built-in function has already taken is not among them. -/
def State.values (st : State) : List Value :=
  st.store.values ++ st.control.values ++ st.stack.flatMap Frame.values

/-- The values that an action uses. -/
def Action.values : Action → List Value
  | result (.ok v) | newVariable v | writeVariable _ v => [v]
  | result (.error _) | readVariable _ => []
  | catchError action h => [action, h]

/-! ## Sound states -/

/-- What the check of an argument may yield: only a parameter of any kind takes a value as it is. -/
def Param.Admits : (p : Param) → p.Carrier → Prop
  | .any, v => Value.Sound v
  | _, _ => True

/-- With the arguments that are still missing, the function acts on sound values. -/
def Curried.Keeps : (params : List Param) → Curried params → Prop
  | [], action => ∀ v ∈ Action.values action, v.Sound
  | p :: ps, f => ∀ a : p.Carrier, p.Admits a → Keeps ps (f a)

/-- All values are sound, a callable is called with as many arguments as it takes, and a built-in
function has one for each parameter. -/
def Control.Sound (c : Control) : Prop :=
  (∀ v ∈ c.values, v.Sound) ∧
  match c with
  | invoke f args => args.length = f.arity
  | supply _ _ params f args => args.length = params.length ∧ Curried.Keeps params f
  | _ => True

/-- All values are sound, and an argument that is being forced is followed by one for each of the
other parameters. -/
def Frame.Sound (f : Frame) : Prop :=
  (∀ v ∈ f.values, v.Sound) ∧
  match f with
  | argument _ _ p ps f args =>
    args.length = ps.length ∧ ∀ a : p.Carrier, p.Admits a → Curried.Keeps ps (f a)
  | _ => True

/-- All values in the store are sound. -/
def Store.Sound (s : Store) : Prop :=
  ∀ v ∈ s.values, v.Sound

/-- The store, the control and the frames are sound. -/
structure State.Sound (st : State) : Prop where
  store : st.store.Sound
  control : st.control.Sound
  stack : ∀ f ∈ st.stack, f.Sound

theorem State.Sound.values (h : st.Sound) : ∀ v ∈ st.values, v.Sound := by
  intro v hv
  simp only [State.values, List.mem_append, List.mem_flatMap] at hv
  rcases hv with (hv | hv) | ⟨f, hf, hv⟩
  · exact h.store v hv
  · exact h.control.1 v hv
  · exact (h.stack f hf).1 v hv

/-! ## Stores -/

theorem Store.sound_iff :
    s.Sound ↔ (∀ c ∈ s.cells, ∀ v ∈ c.values, v.Sound) ∧ (∀ v ∈ s.references, v.Sound) ∧
      ∀ v ∈ Scope.values s.globals, v.Sound := by
  constructor
  · intro h
    refine ⟨?_, ?_, ?_⟩
    · intro c hc v hv
      exact h v (List.mem_append_left _ (List.mem_append_left _ (List.mem_flatMap.mpr ⟨c, hc, hv⟩)))
    · intro v hv
      exact h v (List.mem_append_left _ (List.mem_append_right _ hv))
    · intro v hv
      exact h v (List.mem_append_right _ hv)
  · rintro ⟨hcells, hreferences, hglobals⟩ v hv
    simp only [Store.values, List.mem_append, List.mem_flatMap] at hv
    rcases hv with (⟨c, hc, hv⟩ | hv) | hv
    · exact hcells c hc v hv
    · exact hreferences v hv
    · exact hglobals v hv

namespace Store.Sound

theorem cell {id : ℕ} {c : Cell} (hs : s.Sound) (hc : s.cells[id]? = some c) :
    ∀ v ∈ c.values, v.Sound :=
  (Store.sound_iff.mp hs).1 c (List.mem_of_getElem? hc)

theorem addCell {c : Cell} (hs : s.Sound) (hc : ∀ v ∈ c.values, v.Sound) : (s.addCell c).Sound := by
  obtain ⟨hcells, hrest⟩ := Store.sound_iff.mp hs
  refine Store.sound_iff.mpr ⟨?_, hrest⟩
  intro c' hc'
  rcases List.mem_append.mp hc' with hold | hnew
  · exact hcells c' hold
  · rw [List.mem_singleton.mp hnew]
    exact hc

theorem setCell {c : Cell} (hs : s.Sound) (id : ℕ) (hc : ∀ v ∈ c.values, v.Sound) :
    (s.setCell id c).Sound := by
  obtain ⟨hcells, hrest⟩ := Store.sound_iff.mp hs
  refine Store.sound_iff.mpr ⟨?_, hrest⟩
  intro c' hc'
  rcases List.mem_or_eq_of_mem_set hc' with hold | rfl
  · exact hcells c' hold
  · exact hc

/-- A cell that is pending again has captured what it had captured. -/
theorem release (hs : s.Sound) (id : ℕ) : (s.release id).Sound := by
  unfold Store.release
  split
  · rename_i comp hrunning
    refine hs.setCell id ?_
    intro v hv
    refine hs.cell hrunning v ?_
    cases comp with
    | expression | rendering => exact hv
  · exact hs

theorem setReferences (hs : s.Sound) (hvs : ∀ v ∈ vs, v.Sound) :
    Store.Sound { s with references := vs } := by
  obtain ⟨hcells, -, hglobals⟩ := Store.sound_iff.mp hs
  exact Store.sound_iff.mpr ⟨hcells, hvs, hglobals⟩

theorem references (hs : s.Sound) : ∀ v ∈ s.references, v.Sound :=
  (Store.sound_iff.mp hs).2.1

theorem globals (hs : s.Sound) : ∀ v ∈ Scope.values s.globals, v.Sound :=
  (Store.sound_iff.mp hs).2.2

end Store.Sound

theorem mem_values_of_lookup {name : String} (h : scope.lookup name = some v) :
    v ∈ Scope.values scope := by
  obtain ⟨before, after, rfl, -⟩ := List.lookup_eq_some_iff.mp h
  simp [Scope.values]

theorem lookup?_sound {name : String} (hs : s.Sound) (hscope : ∀ v ∈ Scope.values scope, v.Sound)
    (h : s.lookup? scope name = some v) : v.Sound := by
  rcases Option.or_eq_some_iff.mp h with hlocal | ⟨-, hglobal⟩
  · exact hscope v (mem_values_of_lookup hlocal)
  · exact hs.globals v (mem_values_of_lookup hglobal)

/-! ## Controls and frames -/

theorem Control.sound_value (hv : v.Sound) : (Control.value v).Sound :=
  ⟨by simpa [Control.values] using hv, trivial⟩

theorem Control.sound_force (hv : v.Sound) : (Control.force v).Sound :=
  ⟨by simpa [Control.values] using hv, trivial⟩

theorem Control.sound_apply (hv : v.Sound) (hargs : ∀ a ∈ args, a.Sound) :
    (Control.apply v args).Sound :=
  ⟨by simpa [Control.values] using ⟨hv, hargs⟩, trivial⟩

theorem Control.sound_eval (e : Expr) (hscope : ∀ v ∈ Scope.values scope, v.Sound) :
    (Control.eval e scope).Sound :=
  ⟨hscope, trivial⟩

theorem Control.sound_fail (e : Error) : (Control.fail e).Sound :=
  ⟨by simp [Control.values], trivial⟩

theorem Control.sound_raise (e : Error) : (Control.raise e).Sound :=
  ⟨by simp [Control.values], trivial⟩

theorem Control.sound_ofResult {r : Result Value} (h : ∀ v, r = .ok v → v.Sound) :
    (Control.ofResult r).Sound := by
  rcases r with (f | f) | v
  · exact sound_fail _
  · exact sound_raise _
  · exact sound_value (h v rfl)

theorem Control.sound_call (name : String) (hargs : ∀ a ∈ args, a.Sound) :
    (Control.call name args).Sound := by
  unfold Control.call
  split
  · exact sound_apply (sound_builtin _) hargs
  · exact sound_fail _

theorem map_ok_sound {α : Type} {r : Result α} {g : α → Value} (hg : ∀ a, (g a).isPlain = true) :
    ∀ v, r.map g = .ok v → v.Sound := by
  intro v h
  cases r with
  | error e => cases h
  | ok a =>
    cases h
    exact sound_of_isPlain (hg a)

theorem sound_cons {x : Frame} (hx : x.Sound) (hK : ∀ f ∈ K, f.Sound) : ∀ f ∈ x :: K, f.Sound := by
  intro f hf
  rcases List.mem_cons.mp hf with rfl | hf
  · exact hx
  · exact hK f hf

/-! ## Built-in functions -/

theorem keeps_value (hv : v.isPlain = true) : ∀ w ∈ (Action.value v).values, w.Sound := by
  intro w hw
  rw [List.mem_singleton.mp hw]
  exact sound_of_isPlain hv

theorem keeps_result {α : Type} (r : Result α) {g : α → Value} (hg : ∀ a, (g a).isPlain = true) :
    ∀ w ∈ (Action.result (r.map g)).values, w.Sound := by
  intro w hw
  cases r with
  | error e => cases hw
  | ok a => exact keeps_value (hg a) w hw

/-- Built-in functions act on their arguments and on values that they make. -/
theorem builtin_keeps (b : Builtin) : Curried.Keeps b.params b.act := by
  cases b with
  | imul | addC | subC | eqWord64 | strEq | strOrd | integerCmp =>
    intro _ _ _ _
    exact keeps_value rfl
  | decodeDouble | isDoubleNaN | isDoubleInfinite | isDoubleNegativeZero | rintDouble | sinh | cosh
    | tanh | readDouble | isFloatNaN | isFloatInfinite | isFloatNegativeZero | rintFloat
    | integerToInt =>
    intro _ _
    exact keeps_value rfl
  | quot | integerAdd | integerSub | integerMul | integerPow =>
    intro _ _ _ _
    exact keeps_result _ fun _ => rfl
  | showDouble | showDoubleJS | showInt | integerNeg | integerFromInt | integerShow
    | integerRead =>
    intro _ _
    exact keeps_result _ fun _ => rfl
  | newMutVar =>
    intro v hv w hw
    rw [List.mem_singleton.mp hw]
    exact hv
  | readMutVar =>
    intro _ _ w hw
    cases hw
  | writeMutVar =>
    intro _ _ v hv w hw
    rw [List.mem_singleton.mp hw]
    exact hv
  | catchError =>
    intro action haction h hh w hw
    rcases List.mem_pair.mp hw with rfl | rfl
    · exact haction
    · exact hh

theorem check_admits {p : Param} {name : String} {position : ℕ} {a : p.Carrier} (hv : v.Sound)
    (h : p.check name position v = .ok a) : p.Admits a := by
  cases p with
  | any =>
    cases h
    exact hv
  | _ => trivial

/-! ## Transitions -/

section Transitions

variable (hs : s.Sound) (hK : ∀ f ∈ K, f.Sound)

include hs hK

theorem allocate_sound {c : Cell} (hc : ∀ v ∈ c.values, v.Sound) : (s.allocate c K).Sound where
  store := hs.addCell hc
  control := Control.sound_value (sound_of_isPlain rfl)
  stack := hK

theorem perform_sound (op : Operation) (hvs : ∀ v ∈ vs, v.Sound) : (perform s K op vs).Sound := by
  -- most operations lead to a value in the same store
  have hvalue {v : Value} (hv : v.Sound) : State.Sound ⟨s, .value v, K⟩ :=
    ⟨hs, Control.sound_value hv, hK⟩
  unfold perform
  split
  · exact allocate_sound hs hK hvs
  · obtain ⟨hf, hargs⟩ := List.forall_mem_cons.mp hvs
    exact ⟨hs, Control.sound_apply hf hargs, hK⟩
  · obtain ⟨haction, hh⟩ := List.forall_mem_cons.mp hvs
    exact ⟨hs, Control.sound_apply haction (by simp), sound_cons ⟨hh, trivial⟩ hK⟩
  · rename_i v
    exact ⟨hs, Control.sound_force (hvs v (by simp)), hK⟩
  · rename_i v
    refine ⟨hs, Control.sound_force (hvs v (by simp)), sound_cons ⟨?_, trivial⟩ hK⟩
    simp [Frame.values]
  · cases hlast : vs.getLast? with
    | none => exact hvalue (sound_of_isPlain rfl)
    | some v => exact hvalue (hvs v (List.mem_of_getLast? hlast))
  · exact hvalue (sound_list_iff.mpr hvs)
  · exact ⟨hs, Control.sound_fail _, hK⟩
  · split <;> exact hvalue (sound_of_isPlain rfl)
  · exact hvalue (sound_of_isPlain rfl)
  · rename_i f args
    exact hvalue (sound_given_iff.mp (hvs (.callable (.given f args)) (by simp))).2.1
  · rename_i f args
    have hargs := (sound_given_iff.mp (hvs (.callable (.given f args)) (by simp))).2.2
    exact hvalue (sound_list_iff.mpr hargs)
  · exact hvalue (sound_of_isPlain rfl)
  · exact hvalue (sound_of_isPlain rfl)
  · exact ⟨hs, Control.sound_ofResult (map_ok_sound fun _ => rfl), hK⟩
  · exact hvalue (sound_of_isPlain rfl)
  · exact ⟨hs, Control.sound_call _ hvs, hK⟩
  · exact ⟨hs, Control.sound_fail _, hK⟩

theorem operate_sound (op : Operation) {done : List Value} (rest : List Expr)
    (hscope : ∀ v ∈ Scope.values scope, v.Sound) (hdone : ∀ v ∈ done, v.Sound) :
    (operate s K scope op done rest).Sound := by
  cases rest with
  | nil => exact perform_sound hs hK op hdone
  | cons e rest =>
    refine ⟨hs, Control.sound_eval e hscope, sound_cons ⟨?_, trivial⟩ hK⟩
    exact List.forall_mem_append.mpr ⟨hdone, hscope⟩

theorem evaluate_sound (e : Expr) (hscope : ∀ v ∈ Scope.values scope, v.Sound) :
    (evaluate s K scope e).Sound := by
  cases e with
  | constant c => exact ⟨hs, Control.sound_value (sound_of_isPlain rfl), hK⟩
  | var name =>
    rw [evaluate]
    split
    · rename_i v hlookup
      exact ⟨hs, Control.sound_value (lookup?_sound hs hscope hlookup), hK⟩
    · exact ⟨hs, Control.sound_fail _, hK⟩
  | builtin name =>
    rw [evaluate]
    split
    · exact ⟨hs, Control.sound_value (sound_builtin _), hK⟩
    · exact ⟨hs, Control.sound_fail _, hK⟩
  | native name arity =>
    refine ⟨hs, ?_, hK⟩
    change (Control.native name arity).Sound
    unfold Control.native
    split
    · exact Control.sound_raise _
    · exact Control.sound_value (sound_native _ _)
  | suspend | suspendSafe => exact allocate_sound hs hK hscope
  | suspendText x o => exact allocate_sound hs hK (by simp [Cell.values])
  | suspendNothing => exact ⟨hs, Control.sound_raise _, hK⟩
  | lambda name params body =>
    have hclosure : ∀ x ∈ scope, x.2.Sound := fun x hx => hscope x.2 (List.mem_map_of_mem hx)
    exact ⟨hs, Control.sound_value (sound_closure_iff.mpr ⟨rfl, hclosure⟩), hK⟩
  | fail e => exact ⟨hs, Control.sound_fail e, hK⟩
  | raise e => exact ⟨hs, Control.sound_raise e, hK⟩
  | failTimes | log => exact ⟨hs, Control.sound_eval _ hscope, hK⟩
  | bind name value body =>
    exact ⟨hs, Control.sound_eval value hscope, sound_cons ⟨hscope, trivial⟩ hK⟩
  | operate op operands => exact operate_sound hs hK op operands hscope (by simp)

theorem start_sound (id : ℕ) {comp : Computation}
    (hcomp : ∀ v ∈ (Cell.pending comp).values, v.Sound) : (start s K id comp).Sound := by
  have hcompute : ∀ f ∈ Frame.compute id :: K, f.Sound :=
    sound_cons ⟨by simp [Frame.values], trivial⟩ hK
  cases comp with
  | expression label safe body scope =>
    refine ⟨hs, Control.sound_eval body hcomp, ?_⟩
    cases safe with
    | false => exact hcompute
    | true => exact sound_cons ⟨by simp [Frame.values], trivial⟩ hcompute
  | rendering x o => exact ⟨hs, Control.sound_ofResult (map_ok_sound fun _ => rfl), hcompute⟩

theorem force_sound (hv : v.Sound) : (force s K v).Sound := by
  unfold force
  split
  · split
    · rename_i w hcell
      exact ⟨hs, Control.sound_value (hs.cell hcell w (by simp [Cell.values])), hK⟩
    · exact ⟨hs, Control.sound_raise _, hK⟩
    · rename_i comp hcell
      have hcomp := hs.cell hcell
      refine start_sound (hs.setCell _ ?_) hK _ hcomp
      -- a cell that runs has captured what it had captured before
      cases comp with
      | expression | rendering => exact hcomp
    · exact ⟨hs, Control.sound_fail _, hK⟩
  · exact ⟨hs, Control.sound_value hv, hK⟩

/-- A call with as many arguments as the callable takes. If arguments were given to it before, the
callable in it is applied to all of them; otherwise there is one for each parameter. -/
theorem invoke_sound (hf : (Value.callable f).Sound) (hargs : ∀ a ∈ args, a.Sound)
    (hlen : args.length = f.arity) : (invoke s K f args).Sound := by
  unfold invoke
  split
  · rename_i g first
    obtain ⟨-, hg, hfirst⟩ := sound_given_iff.mp hf
    exact ⟨hs, Control.sound_apply hg (List.forall_mem_append.mpr ⟨hfirst, hargs⟩), hK⟩
  · rename_i name n b
    have hn : n = b.arity := hf _ .refl
    have hcount : args.length = n := Int.ofNat.inj hlen
    exact ⟨hs, ⟨hargs, hcount.trans hn, builtin_keeps b⟩, hK⟩
  · exact ⟨hs, Control.sound_value (sound_of_isPlain rfl), hK⟩
  · rename_i name n params body scope
    obtain ⟨-, hscope⟩ := sound_closure_iff.mp hf
    refine ⟨hs, Control.sound_eval body ?_, hK⟩
    intro v hv
    simp only [Scope.values, List.map_append, List.map_reverse, List.mem_append, List.mem_reverse,
      List.mem_map] at hv
    rcases hv with ⟨x, hx, rfl⟩ | ⟨x, hx, rfl⟩
    · exact hargs x.2 (List.of_mem_zip hx).2
    · exact hscope x hx

/-- An application calls with as many arguments as the callable takes, or keeps fewer. -/
theorem applyForced_sound (hv : v.Sound) (hargs : ∀ a ∈ args, a.Sound) :
    (applyForced s K v args).Sound := by
  unfold applyForced
  split
  · rename_i f
    have hcallable (vs : List Value) (hvs : ∀ a ∈ vs, a.Sound) :
        ∀ w ∈ (Control.invoke f vs).values, w.Sound := List.forall_mem_cons.mpr ⟨hv, hvs⟩
    split
    · rename_i hlen
      exact ⟨hs, ⟨hcallable args hargs, hlen⟩, hK⟩
    · split
      · rename_i hfew
        exact ⟨hs, Control.sound_value (sound_given_iff.mpr ⟨hfew, hv, hargs⟩), hK⟩
      · -- a sound callable takes no negative number of arguments, so that it gets what it takes
        have htake : ∀ a ∈ args.take f.arity.toNat, a.Sound :=
          fun a ha => hargs a (List.mem_of_mem_take ha)
        refine ⟨hs, ⟨hcallable _ htake, ?_⟩, sound_cons ⟨?_, trivial⟩ hK⟩
        · have hnonneg := arity_nonneg hv
          change ((args.take f.arity.toNat).length : Int) = f.arity
          rw [List.length_take]
          omega
        · intro a ha
          exact hargs a (List.mem_of_mem_drop ha)
  · exact ⟨hs, Control.sound_value hv, hK⟩

theorem act_sound {action : Action} (h : ∀ v ∈ action.values, v.Sound) :
    (act s K action).Sound := by
  cases action with
  | result r =>
    refine ⟨hs, Control.sound_ofResult ?_, hK⟩
    rintro v rfl
    exact h v (by simp [Action.values])
  | newVariable v =>
    refine ⟨hs.setReferences ?_, Control.sound_value (sound_of_isPlain rfl), hK⟩
    exact List.forall_mem_append.mpr ⟨hs.references, h⟩
  | readVariable id =>
    refine ⟨hs, Control.sound_value ?_, hK⟩
    rw [List.getD_eq_getElem?_getD]
    cases hread : s.references[id]? with
    | none => exact sound_of_isPlain rfl
    | some v => exact hs.references v (List.mem_of_getElem? hread)
  | writeVariable id v =>
    refine ⟨hs.setReferences ?_, Control.sound_value (sound_of_isPlain rfl), hK⟩
    intro w hw
    rcases List.mem_or_eq_of_mem_set hw with hold | rfl
    · exact hs.references w hold
    · exact h w (by simp [Action.values])
  | catchError action handler =>
    refine ⟨hs, Control.sound_apply (h action (by simp [Action.values])) (by simp),
      sound_cons ⟨?_, trivial⟩ hK⟩
    simpa [Frame.values] using h handler (by simp [Action.values])

theorem supply_sound (name : String) (position : ℕ) {params : List Param} {g : Curried params}
    (hg : Curried.Keeps params g) (hargs : ∀ a ∈ args, a.Sound)
    (hlen : args.length = params.length) : (supply s K name position params g args).Sound := by
  unfold supply
  split
  · exact act_sound hs hK hg
  · rename_i ps g v vs
    obtain ⟨hv, hvs⟩ := List.forall_mem_cons.mp hargs
    exact ⟨hs, ⟨hvs, Nat.succ.inj hlen, hg v hv⟩, hK⟩
  · obtain ⟨hv, hvs⟩ := List.forall_mem_cons.mp hargs
    exact ⟨hs, Control.sound_force hv, sound_cons ⟨hvs, Nat.succ.inj hlen, hg⟩ hK⟩
  · cases hlen

theorem resume_sound (hv : v.Sound) {x : Frame} (hx : x.Sound) : (resume s K v x).Sound := by
  obtain ⟨hvalues, hrest⟩ := hx
  cases x with
  | operands op done rest scope =>
    obtain ⟨hdone, hscope⟩ := List.forall_mem_append.mp hvalues
    refine operate_sound hs hK op rest hscope (List.forall_mem_append.mpr ⟨hdone, ?_⟩)
    simpa using hv
  | bind name body scope =>
    exact ⟨hs, Control.sound_eval body (List.forall_mem_cons.mpr ⟨hv, hvalues⟩), hK⟩
  | compute id =>
    rw [resume]
    split
    · exact ⟨hs, Control.sound_force hv, sound_cons ⟨by simp [Frame.values], trivial⟩ hK⟩
    · exact ⟨hs.setCell id (by simpa [Cell.values] using hv), Control.sound_value hv, hK⟩
  | settle id => exact ⟨hs.setCell id (by simpa [Cell.values] using hv), Control.sound_value hv, hK⟩
  | insist | handler => exact ⟨hs, Control.sound_value hv, hK⟩
  | operator args => exact applyForced_sound hs hK hv hvalues
  | surplus args => exact ⟨hs, Control.sound_apply hv hvalues, hK⟩
  | argument name position p ps g args =>
    rw [resume]
    split
    · rename_i a hcheck
      exact ⟨hs, ⟨hvalues, hrest.1, hrest.2 a (check_admits hv hcheck)⟩, hK⟩
    · exact ⟨hs, Control.sound_fail _, hK⟩

theorem returnError_sound (e : Error) {x : Frame} (hx : x.Sound) : (returnError s K e x).Sound := by
  cases x with
  | compute id | settle id => exact ⟨hs.release id, Control.sound_fail e, hK⟩
  | insist => exact ⟨hs, Control.sound_raise e, hK⟩
  | handler h =>
    have herror : (Value.error e).Sound := sound_of_isPlain rfl
    refine ⟨hs, Control.sound_apply (hx.1 h (by simp [Frame.values])) ?_, hK⟩
    simpa using herror
  | operands | bind | operator | surplus | argument => exact ⟨hs, Control.sound_fail e, hK⟩

theorem raiseError_sound (e : Error) {x : Frame} (hx : x.Sound) : (raiseError s K e x).Sound := by
  cases x with
  | compute id | settle id => exact ⟨hs.release id, Control.sound_raise e, hK⟩
  | handler h =>
    rw [raiseError]
    split
    · have herror : (Value.error e).Sound := sound_of_isPlain rfl
      refine ⟨hs, Control.sound_apply (hx.1 h (by simp [Frame.values])) ?_, hK⟩
      simpa using herror
    · exact ⟨hs, Control.sound_raise e, hK⟩
  | operands | bind | insist | operator | surplus | argument =>
    exact ⟨hs, Control.sound_raise e, hK⟩

end Transitions

/-- A transition from a sound state leads to a sound one. -/
theorem State.Sound.step (h : st.Sound) (hstep : Lazy.step st = some next) : next.Sound := by
  obtain ⟨s, control, stack⟩ := st
  obtain ⟨hs, ⟨hvalues, hsaturated⟩, hK⟩ := h
  cases control with
  | eval e scope =>
    cases hstep
    exact evaluate_sound hs hK e hvalues
  | force v =>
    cases hstep
    exact force_sound hs hK (hvalues v (by simp [Control.values]))
  | apply f args =>
    cases hstep
    obtain ⟨hf, hargs⟩ := List.forall_mem_cons.mp hvalues
    exact ⟨hs, Control.sound_force hf, sound_cons ⟨hargs, trivial⟩ hK⟩
  | invoke f args =>
    cases hstep
    obtain ⟨hf, hargs⟩ := List.forall_mem_cons.mp hvalues
    exact invoke_sound hs hK hf hargs hsaturated
  | supply name position params g args =>
    cases hstep
    exact supply_sound hs hK name position hsaturated.2 hvalues hsaturated.1
  | value v =>
    cases stack with
    | nil => cases hstep
    | cons x K =>
      cases hstep
      obtain ⟨hx, hK⟩ := List.forall_mem_cons.mp hK
      exact resume_sound hs hK (hvalues v (by simp [Control.values])) hx
  | fail e =>
    cases stack with
    | nil => cases hstep
    | cons x K =>
      cases hstep
      obtain ⟨hx, hK⟩ := List.forall_mem_cons.mp hK
      exact returnError_sound hs hK e hx
  | raise e =>
    cases stack with
    | nil => cases hstep
    | cons x K =>
      cases hstep
      obtain ⟨hx, hK⟩ := List.forall_mem_cons.mp hK
      exact raiseError_sound hs hK e hx

end Numerals.Lazy
