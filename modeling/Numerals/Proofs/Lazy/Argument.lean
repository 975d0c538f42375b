import Numerals.Proofs.Lazy.Moments
import Numerals.Proofs.Lazy.Supply
import Numerals.Proofs.Layout.RoundTrip
import Numerals.Proofs.Word

/-!
# Arguments that are refused

A parameter takes the values of some types, and a parameter of 32 bits only the numbers in their
range. The arguments of a built-in function are forced and checked from left to right, and the first
one that cannot be forced or is not taken decides the outcome: from then on nothing is forced and
nothing is done. Main statement: the call fails as this force does, or with a fault that has the
position of the argument as its index. If all arguments are taken, no such fault comes out.
-/

namespace Numerals

/-- Whether a fault says that a parameter does not take its argument. -/
def Fault.isArgument : Fault → Bool
  | argumentType .. | argumentRange .. => true
  | _ => false

/-! ## Faults of the functions themselves -/

namespace Result

variable {α β : Type} {r : Result α}

/-- No fault in the result says that an argument is not taken. -/
def Unblamed (r : Result α) : Prop :=
  ∀ f, r = .error f → f.error.isArgument = false

theorem unblamed_ok (a : α) : Unblamed (.ok a) := by
  rintro f ⟨⟩

theorem unblamed_error {f : Failure Fault} (h : f.error.isArgument = false) :
    Unblamed (.error f : Result α) := by
  rintro f' ⟨⟩
  exact h

theorem Unblamed.map (h : r.Unblamed) (g : α → β) : Unblamed (r.map g) := by
  cases r with
  | ok a => exact unblamed_ok (g a)
  | error f => exact unblamed_error (h f rfl)

theorem Unblamed.bind {k : α → Result β} (h : r.Unblamed) (hk : ∀ a, (k a).Unblamed) :
    Unblamed (r >>= k) := by
  cases r with
  | ok a => exact hk a
  | error f => exact unblamed_error (h f rfl)

end Result

open Result

theorem Magnitude.unblamed_sub (x y : Magnitude) : (x.sub y).Unblamed := by
  unfold Magnitude.sub
  split
  · exact unblamed_ok _
  · exact unblamed_error rfl

namespace Integer

theorem unblamed_add (x y : Integer) : (x.add y).Unblamed := by
  unfold Integer.add
  split_ifs
  · exact unblamed_ok _
  · exact unblamed_ok _
  · exact unblamed_ok _
  · split
    · exact unblamed_ok _
    · exact (Magnitude.unblamed_sub _ _).map _
    · exact (Magnitude.unblamed_sub _ _).map _

theorem unblamed_pow (x : Integer) (e : ℤ) : (x.pow e).Unblamed := by
  have htwo : (powerOfTwo e).Unblamed := by
    unfold powerOfTwo
    split_ifs
    · exact unblamed_ok _
    · exact unblamed_error rfl
  have hten : (powerOfTen e).Unblamed := by
    unfold powerOfTen
    split_ifs
    · exact unblamed_ok _
    · exact unblamed_error rfl
  unfold Integer.pow
  split_ifs
  · exact unblamed_error rfl
  · exact htwo
  · exact hten
  · exact unblamed_ok _

theorem unblamed_readDigits (base i : ℕ) (acc : Integer) (bytes : List UInt8) :
    (readDigits base i acc bytes).Unblamed := by
  induction bytes generalizing i acc with
  | nil => exact unblamed_ok acc
  | cons c cs ih =>
    unfold readDigits
    split
    · exact unblamed_error rfl
    · exact (unblamed_add _ _).bind fun acc' => ih (i + 1) acc'

theorem unblamed_read (t : String) (base : ℤ) : (read t base).Unblamed := by
  unfold read readBytes
  split_ifs
  · split
    · exact unblamed_error rfl
    · exact (unblamed_readDigits _ _ _ _).bind fun x => unblamed_ok _
  · exact unblamed_error rfl

end Integer

theorem Word.unblamed_quot (a b : Int32) : (Word.quot a b).Unblamed := by
  unfold Word.quot
  split_ifs
  · exact unblamed_error rfl
  · exact unblamed_ok _

namespace Lazy

variable {s s' s₁ : Store} {p : Param} {ps qs : List Param} {v w : Value} {vs ws rest : List Value}
  {o : Outcome} {name : String} {position n : ℕ} {x next : State} {b : Builtin}

/-! ## What a parameter takes -/

/-- The names of the types of the values that a parameter takes. -/
def Param.types : Param → List String
  | int32 => ["int32", "int", "int64"]
  | int => ["int", "int32", "int64"]
  | float64 => ["float64", "float32", "int"]
  | float32 => ["float32", "float64", "int"]
  | word64 => ["uint64", "int64", "int", "uint32"]
  | text => ["string"]
  | integer => ["*bigint.Int", "int", "int64"]
  | reference => ["*prim.MutVar"]
  | any => []

/-- The number of a signed integer of 64 bits. -/
def Value.signed? : Value → Option ℤ
  | constant (.int n) => some n.toInt
  | constant (.int64 n) => some n.toInt
  | _ => none

/-- The parameter takes the forced value `v`: its type is one of those of the parameter, and a
number for 32 bits is in their range. -/
def Param.Accepts (p : Param) (v : Value) : Prop :=
  v.typeName ∈ p.types ∧ (p = .int32 → ∀ n ∈ v.signed?, -2 ^ 31 ≤ n ∧ n < 2 ^ 31)

instance (p : Param) (v : Value) : Decidable (p.Accepts v) :=
  inferInstanceAs (Decidable (_ ∧ _))

theorem checkInt32_eq (name : String) (position : ℕ) (n : ℤ) :
    checkInt32 name position n =
      if -2 ^ 31 ≤ n ∧ n < 2 ^ 31 then .ok (Int32.ofInt n)
      else .error (.argumentRange name position n) := by
  rw [checkInt32]
  exact if_congr Word.fits_iff rfl rfl

/-- A value that the parameter takes passes the check. -/
theorem Param.Accepts.exists_check (h : p.Accepts v) (name : String) (position : ℕ) :
    ∃ a, p.check name position v = .ok a := by
  obtain ⟨htype, hrange⟩ := h
  -- where the type is none of those of the parameter, `htype` is absurd
  cases v with
  | constant c =>
    cases p <;> cases c <;> simp [Param.types, Value.typeName] at htype
    case int32.int | int32.int64 =>
      exact ⟨_, (checkInt32_eq name position _).trans (if_pos (hrange rfl _ rfl))⟩
    all_goals exact ⟨_, rfl⟩
  | reference id =>
    cases p <;> simp [Param.types, Value.typeName] at htype
    exact ⟨_, rfl⟩
  | callable f => cases p <;> cases f <;> simp [Param.types, Value.typeName] at htype
  | error e =>
    by_cases he : e.isClassified = true <;> cases p <;>
      simp [Param.types, Value.typeName, he] at htype
  | _ => cases p <;> simp [Param.types, Value.typeName] at htype

theorem check_of_type (hp : p ≠ .any) (htype : v.typeName ∉ p.types) :
    p.check name position v = .error (.argumentType name position v.typeName p.wanted) := by
  cases p with
  | any => exact absurd rfl hp
  | _ =>
    cases v with
    | constant c => cases c <;> simp [Param.types, Value.typeName] at htype <;> rfl
    | reference id => simp [Param.types, Value.typeName] at htype <;> rfl
    | _ => rfl

/-- Any other value is refused, by a fault that has the position as its index. -/
theorem exists_refusal (hp : p ≠ .any) (h : ¬p.Accepts v) (name : String) (position : ℕ) :
    ∃ e, p.check name position v = .error e ∧ e.isArgument = true ∧
      e.category = .invalidArgument ∧ e.index? = some position := by
  by_cases htype : v.typeName ∈ p.types
  · -- then it is a number that does not fit in 32 bits
    obtain ⟨rfl, n, hn, hrange⟩ : p = .int32 ∧ ∃ n, v.signed? = some n ∧
        ¬(-2 ^ 31 ≤ n ∧ n < 2 ^ 31) := by
      simpa [Param.Accepts, htype] using h
    have hcheck : Param.int32.check name position v = checkInt32 name position n := by
      cases v with
      | constant c => cases c <;> cases hn <;> rfl
      | _ => cases hn
    exact ⟨_, hcheck.trans ((checkInt32_eq name position n).trans (if_neg hrange)), rfl, rfl, rfl⟩
  · exact ⟨_, check_of_type hp htype, rfl, rfl, rfl⟩

/-! ## Arguments in turn -/

/-- The arguments `ws` are forced in turn and yield values `vs` that their parameters take, except
that arguments of any kind are left as they are. The forces lead from the first store to the second
one. -/
inductive Passes : List Param → Store → List Value → List Value → Store → Prop where
  | nil (s : Store) : Passes [] s [] [] s
  | kept {ps : List Param} {s s' : Store} {ws vs : List Value} (v : Value)
      (hrest : Passes ps s ws vs s') : Passes (.any :: ps) s (v :: ws) (v :: vs) s'
  | forced {p : Param} {ps : List Param} {s s₁ s' : Store} {w v : Value} {ws vs : List Value}
      (hp : p ≠ .any) (hforce : Evaluates s (.force w) (.value v) s₁) (hv : p.Accepts v)
      (hrest : Passes ps s₁ ws vs s') : Passes (p :: ps) s (w :: ws) (v :: vs) s'

/-- What is left of a function of `ps` and `qs` when it is given values for `ps`, if it takes
them. -/
def Curried.give? (name : String) {qs : List Param} :
    ℕ → (ps : List Param) → Curried (ps ++ qs) → List Value → Option (Curried qs)
  | _, [], f, _ => some f
  | _, _ :: _, _, [] => none
  | position, p :: ps, f, v :: vs =>
    match p.check name position v with
    | .ok a => give? name (position + 1) ps (f a) vs
    | .error _ => none

theorem give?_cons {f : p.Carrier → Curried (ps ++ qs)} {a : p.Carrier}
    (hcheck : p.check name position v = .ok a) :
    Curried.give? name position (p :: ps) f (v :: vs) =
      Curried.give? name (position + 1) ps (f a) vs := by
  simp only [Curried.give?, hcheck]

/-- Once the arguments for `ps` have passed, the rest of the function is supplied. -/
theorem Passes.reaches (h : Passes ps s ws vs s') (name : String) (position : ℕ)
    (f : Curried (ps ++ qs)) (rest : List Value) :
    ∃ g : Curried qs, Curried.give? name position ps f vs = some g ∧
      Reaches ⟨s, .supply name position (ps ++ qs) f (ws ++ rest), []⟩
        ⟨s', .supply name (position + ps.length) qs g rest, []⟩ := by
  induction h generalizing position with
  | nil s => exact ⟨f, rfl, .refl⟩
  | @kept ps s s' ws vs v _ ih =>
    obtain ⟨g, hg, hreach⟩ := ih (position + 1) (f v)
    rw [Nat.add_right_comm] at hreach
    exact ⟨g, hg, .head rfl hreach⟩
  | @forced p ps s s₁ s' w v ws vs hp hforce hv _ ih =>
    obtain ⟨a, ha⟩ := hv.exists_check name position
    obtain ⟨g, hg, hreach⟩ := ih (position + 1) (f a)
    rw [Nat.add_right_comm] at hreach
    refine ⟨g, (give?_cons ha).trans hg, .head (step_supply hp f []) ?_⟩
    exact (hforce.reaches_frame _).trans (.head (step_argument ha []) hreach)

/-! ## Moments of a call -/

/-- The position of the argument that a frame waits for. -/
def Frame.position? : Frame → Option ℕ
  | argument _ position _ _ _ _ => some position
  | _ => none

/-- The position of the argument that the outermost call waits for. -/
def State.awaited? (st : State) : Option ℕ :=
  st.stack.getLast?.bind Frame.position?

/-- The outermost call waits for one of its first `n` arguments, or it does nothing to the store. -/
def State.Confined (n : ℕ) (st : State) : Prop :=
  (∃ j < n, st.awaited? = some j) ∨
    st.awaited? = none ∧ ∀ next, step st = some next → next.store = st.store

theorem State.Confined.mono {m : ℕ} (h : x.Confined n) (hle : n ≤ m) : x.Confined m := by
  rcases h with ⟨j, hj, hx⟩ | hx
  · exact .inl ⟨j, hj.trans_le hle, hx⟩
  · exact .inr hx

theorem confined_of_step (hx : x.awaited? = none) (hstep : step x = some next)
    (hstore : next.store = x.store) : x.Confined n := by
  refine .inr ⟨hx, ?_⟩
  intro next' hstep'
  cases hstep.symm.trans hstep'
  exact hstore

theorem awaited?_of_suffix {f : Frame} (h : [f] <:+ x.stack) : x.awaited? = f.position? := by
  obtain ⟨l, hl⟩ := h
  simp [State.awaited?, ← hl]

/-- The moments until an argument is forced. -/
theorem confined_argument {f : p.Carrier → Curried ps} (hp : p ≠ .any)
    (hforce : Evaluates s (.force w) o s₁)
    (hstep : step ⟨s₁, o.control, [.argument name position p ps f rest]⟩ = some next)
    (hx : Reaches ⟨s, .supply name position (p :: ps) f (w :: rest), []⟩ x) :
    x.Confined (position + 1) ∨ Reaches next x := by
  have hfirst : step ⟨s, .supply name position (p :: ps) f (w :: rest), []⟩ = some _ :=
    step_supply hp f []
  rcases hx.cases_head with rfl | ⟨st, hfirst', hx⟩
  · exact .inl (confined_of_step rfl hfirst rfl)
  cases hfirst.symm.trans hfirst'
  -- the frame stays at the bottom as long as the force goes on
  have hends := (evaluates_iff.mp hforce).onto [.argument name position p ps f rest]
  rcases hends.suffix_or_reaches List.suffix_rfl hx with hsuffix | hlast
  · exact .inl (.inl ⟨position, Nat.lt_succ_self position, awaited?_of_suffix hsuffix⟩)
  · rcases hlast.cases_head with rfl | ⟨next', hstep', hx⟩
    · exact .inl (.inl ⟨position, Nat.lt_succ_self position, rfl⟩)
    · cases hstep.symm.trans hstep'
      exact .inr hx

/-- The moments until the arguments for `ps` have passed. -/
theorem Passes.confined (h : Passes ps s ws vs s') (position : ℕ) {f : Curried (ps ++ qs)}
    {g : Curried qs} (hg : Curried.give? name position ps f vs = some g)
    (hx : Reaches ⟨s, .supply name position (ps ++ qs) f (ws ++ rest), []⟩ x) :
    x.Confined (position + ps.length) ∨
      Reaches ⟨s', .supply name (position + ps.length) qs g rest, []⟩ x := by
  induction h generalizing position with
  | nil s =>
    cases hg
    exact .inr hx
  | @kept ps s s' ws vs v _ ih =>
    rw [List.length_cons, ← Nat.succ_add_eq_add_succ]
    rcases hx.cases_head with rfl | ⟨st, hstep, hx⟩
    · exact .inl (confined_of_step rfl rfl rfl)
    · cases hstep
      exact ih (position + 1) hg hx
  | @forced p ps s s₁ s' w v ws vs hp hforce hv _ ih =>
    rw [List.length_cons, ← Nat.succ_add_eq_add_succ]
    obtain ⟨a, ha⟩ := hv.exists_check name position
    rcases confined_argument hp hforce (step_argument ha []) hx with hconf | hx
    · exact .inl (hconf.mono (Nat.le_add_right _ _))
    · exact ih (position + 1) ((give?_cons ha).symm.trans hg) hx

/-- The moments until a primitive is supplied with its arguments. -/
theorem confined_or_supply (hlen : ws.length = b.arity)
    (hx : Reaches ⟨s, Registry.builtins.call b.name ws, []⟩ x) :
    x.Confined n ∨ Reaches ⟨s, .supply b.name 0 b.params b.act ws, []⟩ x := by
  rw [builtins_call] at hx
  -- the primitive is applied, forced, found to have all its arguments, and invoked
  rcases hx.cases_head with rfl | ⟨st, hstep, hx⟩
  · exact .inl (confined_of_step rfl rfl rfl)
  cases hstep
  rcases hx.cases_head with rfl | ⟨st, hstep, hx⟩
  · exact .inl (confined_of_step rfl rfl rfl)
  cases hstep
  rcases hx.cases_head with rfl | ⟨st, hstep, hx⟩
  · exact .inl (confined_of_step rfl (step_operator_builtin hlen) rfl)
  cases (step_operator_builtin hlen).symm.trans hstep
  rcases hx.cases_head with rfl | ⟨st, hstep, hx⟩
  · exact .inl (confined_of_step rfl rfl rfl)
  cases hstep
  exact .inr hx

/-! ## The first argument that is not taken -/

/-- If the call is dropped with what the force of an argument ends with, this is the end of it. -/
theorem Passes.stops {i : ℕ} {params : List Param} {args : List Value} {F : Curried params}
    {s₂ : Store} {r : Outcome} (h : Passes ps s ws vs s₁) (hp : p ≠ .any)
    (hparams : params = ps ++ p :: qs) (hargs : args = ws ++ w :: rest) (hi : ps.length = i)
    (hforce : Evaluates s₁ (.force w) o s₂)
    (hdrop : ∀ f, step ⟨s₂, o.control, [.argument name i p qs f rest]⟩ =
      some ⟨s₂, r.control, []⟩) :
    Reaches ⟨s, .supply name 0 params F args, []⟩ ⟨s₂, r.control, []⟩ ∧
      ∀ x, Reaches ⟨s, .supply name 0 params F args, []⟩ x → x.Confined (i + 1) := by
  subst hparams hargs hi
  obtain ⟨g, hg, hreach⟩ := h.reaches name 0 F (w :: rest)
  rw [Nat.zero_add] at hreach
  have hend : Reaches ⟨s₁, .supply name ps.length (p :: qs) g (w :: rest), []⟩
      ⟨s₂, r.control, []⟩ :=
    .head (step_supply hp g []) ((hforce.reaches_frame _).tail (hdrop g))
  refine ⟨hreach.trans hend, ?_⟩
  intro x hx
  -- a moment before the argument, during its force, or the end
  rcases h.confined 0 hg hx with hconf | hx
  · exact hconf.mono (by omega)
  rw [Nat.zero_add] at hx
  rcases confined_argument hp hforce (hdrop g) hx with hconf | hx
  · exact hconf
  · rw [reaches_outcome_iff.mp hx]
    refine .inr ⟨rfl, ?_⟩
    intro next hstep
    rw [step_eq_none rfl (isOutcome_control r)] at hstep
    cases hstep

theorem call_stops {i : ℕ} {s₂ : Store} {r : Outcome} (hlen : ws.length = b.arity)
    (hparam : b.params[i]? = some p) (hp : p ≠ .any) (harg : ws[i]? = some w)
    (h : Passes (b.params.take i) s (ws.take i) vs s₁) (hforce : Evaluates s₁ (.force w) o s₂)
    (hdrop : ∀ qs f rest, step ⟨s₂, o.control, [.argument b.name i p qs f rest]⟩ =
      some ⟨s₂, r.control, []⟩) :
    Evaluates s (Registry.builtins.call b.name ws) r s₂ ∧
      ∀ x, Reaches ⟨s, Registry.builtins.call b.name ws, []⟩ x → x.Confined (i + 1) := by
  obtain ⟨hi, rfl⟩ := List.getElem?_eq_some_iff.mp hparam
  obtain ⟨hi', rfl⟩ := List.getElem?_eq_some_iff.mp harg
  have hparams : b.params = b.params.take i ++ b.params[i] :: b.params.drop (i + 1) := by simp
  have hargs : ws = ws.take i ++ ws[i] :: ws.drop (i + 1) := by simp
  obtain ⟨hend, hmoments⟩ := h.stops (F := b.act) hp hparams hargs (List.length_take_of_le hi.le)
    hforce fun f => hdrop _ f _
  refine ⟨Reaches.evaluates ((reaches_supply hlen).trans hend), ?_⟩
  intro x hx
  rcases confined_or_supply hlen hx with hconf | hx
  · exact hconf
  · exact hmoments x hx

/-! ## Calls whose arguments are all taken -/

/-- An action that does not run code and whose faults do not say that an argument is not taken. -/
def Action.Unblamed : Action → Prop
  | result r => Result.Unblamed r
  | catchError _ _ => False
  | _ => True

/-- Whatever arguments the function is given, its action has the property `P`. -/
def Curried.Every (P : Action → Prop) : (ps : List Param) → Curried ps → Prop
  | [], a => P a
  | _ :: ps, f => ∀ a, Every P ps (f a)

theorem Curried.Every.give {P : Action → Prop} {f : Curried (ps ++ qs)} {g : Curried qs}
    (h : Curried.Every P (ps ++ qs) f) (hg : Curried.give? name position ps f vs = some g) :
    Curried.Every P qs g := by
  induction ps generalizing position vs with
  | nil =>
    cases hg
    exact h
  | cons p ps ih =>
    cases vs with
    | nil => cases hg
    | cons v vs =>
      cases hcheck : p.check name position v with
      | ok a => exact ih (h a) ((give?_cons hcheck).symm.trans hg)
      | error e => simp only [Curried.give?, hcheck, reduceCtorEq] at hg

theorem Builtin.unblamed_act (hb : b ≠ .catchError) :
    Curried.Every Action.Unblamed b.params b.act := by
  cases b with
  | catchError => exact absurd rfl hb
  | newMutVar => exact fun _ => trivial
  | readMutVar => exact fun _ => trivial
  | writeMutVar => exact fun _ _ => trivial
  | quot => exact fun x y => (Word.unblamed_quot x y).map _
  | integerAdd => exact fun x y => (Integer.unblamed_add x y).map _
  | integerSub => exact fun x y => (Integer.unblamed_add x y.neg).map _
  | integerPow => exact fun x n => (Integer.unblamed_pow x n.toInt).map _
  | integerRead => exact fun t => (Integer.unblamed_read t 10).map _
  | showDouble =>
    intro x
    obtain ⟨t, ht, -⟩ := x.render_readsAs (o := .default) (by decide) (by decide)
    change Unblamed ((Binary64.toText x).map Value.text)
    rw [Binary64.toText_eq ht]
    exact unblamed_ok _
  | showDoubleJS =>
    intro x
    obtain ⟨t, ht, -⟩ := Binary64.toEcmaText_readsAs x
    change Unblamed ((Binary64.toEcmaText x).map Value.text)
    rw [ht]
    exact unblamed_ok _
  | addC | subC | imul | eqWord64 | strEq | strOrd | integerCmp | integerMul =>
    exact fun _ _ => unblamed_ok _
  | _ => exact fun _ => unblamed_ok _

/-- The outcome is no fault that says that an argument is not taken. -/
def Outcome.Unblamed (o : Outcome) : Prop :=
  ∀ f e, o = .failure f → f.error = .fault e → e.isArgument = false

theorem unblamed_value (v : Value) : (Outcome.value v).Unblamed := by
  rintro f e ⟨⟩

/-- With all arguments there, an action that does not run code has an outcome at once. -/
theorem Action.Unblamed.exists_reaches {a : Action} (ha : a.Unblamed) (name : String) (position : ℕ)
    (s : Store) :
    ∃ (o : Outcome) (s' : Store), o.Unblamed ∧
      Reaches ⟨s, .supply name position [] a [], []⟩ ⟨s', o.control, []⟩ := by
  cases a with
  | result r =>
    rcases r with (f | f) | v
    · refine ⟨.failure (.returned (.fault f)), s, ?_, .single rfl⟩
      rintro _ e ⟨⟩ ⟨⟩
      exact ha (.returned f) rfl
    · refine ⟨.failure (.raised (.fault f)), s, ?_, .single rfl⟩
      rintro _ e ⟨⟩ ⟨⟩
      exact ha (.raised f) rfl
    · exact ⟨.value v, s, unblamed_value v, .single rfl⟩
  | newVariable v => exact ⟨.value _, _, unblamed_value _, .single rfl⟩
  | readVariable id => exact ⟨.value _, _, unblamed_value _, .single rfl⟩
  | writeVariable id v => exact ⟨.value _, _, unblamed_value _, .single rfl⟩
  | catchError action h => exact ha.elim

/-- Once all arguments have passed, the function acts. What it does depends on their values only. -/
theorem Passes.acts {params : List Param} (h : Passes ps s ws vs s') (hparams : params = ps ++ [])
    (name : String) (F : Curried params) :
    ∃ a : Action, (∀ P, Curried.Every P params F → P a) ∧
      ∀ t us t', Passes ps t us vs t' →
        Reaches ⟨t, .supply name 0 params F us, []⟩ ⟨t', .supply name ps.length [] a [], []⟩ := by
  subst hparams
  -- the values alone determine what is left of the function
  obtain ⟨a, ha, -⟩ := h.reaches name 0 F []
  refine ⟨a, fun P hP => hP.give ha, ?_⟩
  intro t us t' h'
  obtain ⟨a', ha', hreach⟩ := h'.reaches name 0 F []
  obtain rfl : a = a' := Option.some.inj (ha.symm.trans ha')
  rwa [List.append_nil us, Nat.zero_add] at hreach

/-- A call of a built-in function with all its arguments.
* Let the arguments before the position `i` pass, and let the one at `i` be checked. If it cannot be
  forced, the call fails as this force does. If its value is not taken, the call returns a fault
  with the index `i`. In either case the store is the one that the force has left: at each moment of
  the call one of the arguments up to `i` is awaited, or nothing is done to the store.
* If all arguments pass, the call has an outcome, and it is no fault about an argument. -/
theorem call_refuses_leftmost (hlen : ws.length = b.arity) (s : Store) :
    (∀ i p w vs s₁, b.params[i]? = some p → p ≠ .any → ws[i]? = some w →
      Passes (b.params.take i) s (ws.take i) vs s₁ →
      (∀ f s₂, Evaluates s₁ (.force w) (.failure f) s₂ →
        Evaluates s (Registry.builtins.call b.name ws) (.failure f) s₂) ∧
      (∀ v s₂, Evaluates s₁ (.force w) (.value v) s₂ → ¬p.Accepts v →
        ∃ e : Fault, e.isArgument = true ∧ e.category = .invalidArgument ∧ e.index? = some i ∧
          Evaluates s (Registry.builtins.call b.name ws) (.failure (.returned (.fault e))) s₂) ∧
      (∀ o s₂, Evaluates s₁ (.force w) o s₂ → (∀ v, o = .value v → ¬p.Accepts v) →
        ∀ x, Reaches ⟨s, Registry.builtins.call b.name ws, []⟩ x → x.Confined (i + 1))) ∧
    (b ≠ .catchError → ∀ vs s', Passes b.params s ws vs s' →
      ∃ o s'', Evaluates s (Registry.builtins.call b.name ws) o s'' ∧ o.Unblamed) := by
  refine ⟨?_, ?_⟩
  · intro i p w vs s₁ hparam hp harg hpasses
    -- what a failure or a value that is not taken does to the frame of the argument
    have hfailure (f : Failure Error) (s₂ : Store) (qs : List Param) (g : p.Carrier → Curried qs)
        (rest : List Value) :
        step ⟨s₂, (Outcome.failure f).control, [.argument b.name i p qs g rest]⟩ =
          some ⟨s₂, (Outcome.failure f).control, []⟩ := by
      cases f <;> rfl
    refine ⟨?_, ?_, ?_⟩
    · intro f s₂ hforce
      exact (call_stops hlen hparam hp harg hpasses hforce (hfailure f s₂)).1
    · intro v s₂ hforce hv
      obtain ⟨e, hcheck, hargument, hcategory, hindex⟩ := exists_refusal hp hv b.name i
      refine ⟨e, hargument, hcategory, hindex, ?_⟩
      exact (call_stops hlen hparam hp harg hpasses hforce
        fun _ _ _ => step_argument_refused hcheck []).1
    · intro o s₂ hforce ho
      cases o with
      | failure f => exact (call_stops hlen hparam hp harg hpasses hforce (hfailure f s₂)).2
      | value v =>
        obtain ⟨e, hcheck, -⟩ := exists_refusal hp (ho v rfl) b.name i
        exact (call_stops (r := .failure (.returned (.fault e))) hlen hparam hp harg hpasses hforce
          fun _ _ _ => step_argument_refused hcheck []).2
  · intro hb vs s' hpasses
    obtain ⟨a, ha, hreach⟩ := hpasses.acts (List.append_nil _).symm b.name b.act
    obtain ⟨o, s'', ho, hend⟩ :=
      (ha _ (Builtin.unblamed_act hb)).exists_reaches b.name b.params.length s'
    refine ⟨o, s'', ?_, ho⟩
    exact Reaches.evaluates ((reaches_supply hlen).trans ((hreach s ws s' hpasses).trans hend))

/-- A cell with a number that a parameter of 32 bits takes, one with a number beyond its range, and
one that changes a variable and yields nothing. -/
def argumentStore : Store where
  cells :=
    [.pending (.expression "a" false (.constant (.int 7)) []),
      .pending (.expression "b" false (.constant (.int64 2147483648)) []),
      .pending (.expression "c" false
        (.operate .seq [.operate (.call "writeMutVar") [.var "m", .constant (.int 5)],
          .constant .nil]) [])]
  references := [.int 1]
  globals := [("m", .reference 0)]
  counters := []
  log := []

/-- The second argument of an addition is out of range, after both have been forced. -/
theorem call_refuses_leftmost_range :
    ∃ (e : Fault) (t : Store), e.isArgument = true ∧ e.index? = some 1 ∧
      Evaluates argumentStore (Registry.builtins.call "addC" [.cell 0, .cell 1])
        (.failure (.returned (.fault e))) t ∧ t.log = ["run a", "run b"] := by
  have hfirst : Evaluates argumentStore (.force (.cell 0)) (.value (.int 7))
      (run 10 ⟨argumentStore, .force (.cell 0), []⟩).store := ⟨10, rfl, rfl⟩
  have hsecond : Evaluates (run 10 ⟨argumentStore, .force (.cell 0), []⟩).store (.force (.cell 1))
      (.value (.constant (.int64 2147483648)))
      (run 10 ⟨(run 10 ⟨argumentStore, .force (.cell 0), []⟩).store, .force (.cell 1), []⟩).store :=
    ⟨10, rfl, rfl⟩
  have hlen : [Value.cell 0, .cell 1].length = Builtin.addC.arity := rfl
  obtain ⟨hrefused, -⟩ := call_refuses_leftmost hlen argumentStore
  obtain ⟨-, hvalue, -⟩ := hrefused 1 .int32 (.cell 1) [.int 7] _ rfl (by decide) rfl
    (.forced (by decide) hfirst (by decide) (.nil _))
  obtain ⟨e, hargument, -, hindex, heval⟩ := hvalue _ _ hsecond (by decide)
  exact ⟨e, _, hargument, hindex, heval, rfl⟩

/-- A call that fails may have changed a variable, in the force of the argument that is not taken. A
cell that stands at a later position too is forced with it. -/
theorem call_refuses_after_write :
    ∃ (e : Fault) (t : Store), e.isArgument = true ∧ e.index? = some 0 ∧
      Evaluates argumentStore (Registry.builtins.call "strEq" [.cell 2, .cell 2])
        (.failure (.returned (.fault e))) t ∧
      argumentStore.references = [.int 1] ∧ t.references = [.int 5] ∧
      t.cells[2]? = some (.evaluated .nil) :=
  ⟨.argumentType "strEq" 0 "<nil>" "string",
    (run 40 ⟨argumentStore, Registry.builtins.call "strEq" [.cell 2, .cell 2], []⟩).store,
    rfl, rfl, ⟨40, rfl, rfl⟩, rfl, rfl, rfl⟩

end Lazy

end Numerals
