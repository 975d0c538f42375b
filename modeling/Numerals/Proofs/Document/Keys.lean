import Mathlib.Data.Nat.Notation
import Mathlib.Tactic.SplitIfs
import Numerals.Document.Settings
import Numerals.Proofs.Settings

/-!
# Keys of documents

The decoder compares the keys of a mapping where a key `<<` names further mappings, and it cannot
compare sequences and mappings. `format_crashes` says that only such keys crash it: a text whose
keys all stand for scalars is decoded without comparing others.

`Yields` is the Hoare triple behind it. It says nothing of the state, as scalar keys can be compared
with whatever keys are present.
-/

namespace Numerals.Document

variable {α β σ : Type} {a : Anchored} {d : Decode α}

/-! ## Steps of decoding -/

/-- The step meets no key that cannot be compared, and what it yields has the property `Q`. -/
def Yields (d : Decode α) (Q : α → Prop) : Prop :=
  ∀ p, (∃ x p', d.run p = .ok (x, p') ∧ Q x) ∨
    ∃ o, d.run p = .error o ∧ ∀ type, o ≠ .unhashableKey type

/-- The step meets no key that cannot be compared. -/
def Spared (d : Decode α) : Prop := Yields d fun _ => True

theorem Yields.mono {P Q : α → Prop} (h : Yields d P) (hPQ : ∀ x, P x → Q x) : Yields d Q := by
  intro p
  rcases h p with ⟨x, p', hx, hP⟩ | hfailed
  · exact .inl ⟨x, p', hx, hPQ x hP⟩
  · exact .inr hfailed

theorem Yields.spared {Q : α → Prop} (h : Yields d Q) : Spared d :=
  h.mono fun _ _ => trivial

theorem yields_pure {Q : α → Prop} {x : α} (h : Q x) : Yields (pure x) Q :=
  fun p => .inl ⟨x, p, rfl, h⟩

theorem spared_pure (x : α) : Spared (pure x) :=
  yields_pure trivial

theorem yields_throw {Q : α → Prop} {o : Obstacle} (h : ∀ type, o ≠ .unhashableKey type) :
    Yields (throw o) Q :=
  fun _ => .inr ⟨o, rfl, h⟩

theorem spared_get : Spared (get : Decode Progress) :=
  fun p => .inl ⟨p, p, rfl, trivial⟩

theorem spared_set (p : Progress) : Spared (set p : Decode PUnit) :=
  fun _ => .inl ⟨⟨⟩, p, rfl, trivial⟩

theorem spared_modify (f : Progress → Progress) : Spared (modify f : Decode PUnit) :=
  fun p => .inl ⟨⟨⟩, f p, rfl, trivial⟩

theorem Yields.bind {P : α → Prop} {Q : β → Prop} {f : α → Decode β} (h : Yields d P)
    (hf : ∀ x, P x → Yields (f x) Q) : Yields (d >>= f) Q := by
  intro p
  rw [StateT.run_bind]
  rcases h p with ⟨x, p', hx, hP⟩ | ⟨o, ho, hobstacle⟩
  · rw [hx]
    exact hf x hP p'
  · rw [ho]
    exact .inr ⟨o, rfl, hobstacle⟩

theorem Spared.bind {Q : β → Prop} {f : α → Decode β} (h : Spared d)
    (hf : ∀ x, Yields (f x) Q) : Yields (d >>= f) Q :=
  Yields.bind h fun x _ => hf x

theorem spared_foldlM {xs : List β} {f : σ → β → Decode σ}
    (hf : ∀ s, ∀ x ∈ xs, Spared (f s x)) (s : σ) : Spared (xs.foldlM f s) := by
  induction xs generalizing s with
  | nil => exact spared_pure s
  | cons x xs ih =>
    rw [List.foldlM_cons]
    exact (hf s x List.mem_cons_self).bind
      (ih fun s y hy => hf s y (List.mem_cons_of_mem x hy))

theorem spared_forM {xs : List β} {f : β → Decode PUnit} (hf : ∀ x ∈ xs, Spared (f x)) :
    Spared (xs.forM f) := by
  induction xs with
  | nil => exact spared_pure _
  | cons x xs ih =>
    exact (hf x List.mem_cons_self).bind fun _ => ih fun y hy => hf y (List.mem_cons_of_mem x hy)

theorem spared_filterMapM {xs : List β} {f : β → Decode (Option σ)}
    (hf : ∀ x ∈ xs, Spared (f x)) : Spared (xs.filterMapM f) := by
  induction xs with
  | nil => exact spared_pure _
  | cons x xs ih =>
    have hxs := ih fun y hy => hf y (List.mem_cons_of_mem x hy)
    rw [List.filterMapM_cons]
    refine (hf x List.mem_cons_self).bind fun y => ?_
    cases y with
    | none => exact hxs
    | some y => exact hxs.bind fun ys => spared_pure _

theorem countNode_spared (isReferenced : Bool) : Spared (countNode isReferenced) := by
  refine spared_get.bind fun p => (spared_set _).bind fun _ => ?_
  generalize (if isReferenced then p.referenced + 1 else p.referenced) = referenced
  split_ifs
  · exact yields_throw (by simp)
  · exact spared_pure _

theorem mismatch_spared (m : Mismatch) : Spared (mismatch m) :=
  spared_modify _

theorem follow_yields (a : Anchored) (active : List ℕ) (node : Node) :
    Yields (follow a active node) fun r => r.val.2 = node.target a := by
  cases node with
  | reference line name number target =>
    refine (countNode_spared _).bind fun _ => ?_
    split_ifs
    · exact yields_throw (by simp)
    · exact (countNode_spared _).bind fun _ => yields_pure rfl
  | _ => exact (countNode_spared _).bind fun _ => yields_pure rfl

theorem meaningOf_spared (tag : Tag) (text : String) : Spared (meaningOf tag text) := by
  unfold meaningOf
  split_ifs
  · exact spared_pure _
  · dsimp only
    split_ifs
    · exact spared_pure _
    · split
      · split_ifs
        · exact spared_pure _
        · exact yields_throw (by simp)
      · exact yields_throw (by simp)

theorem scalarOf_spared (tag : Tag) (text : String) : Spared (scalarOf tag text) := by
  unfold scalarOf
  split_ifs
  · split
    · exact spared_pure _
    · exact yields_throw (by simp)
  · exact (meaningOf_spared tag text).bind fun _ => spared_pure _

theorem areKeysUnique_spared (entries : List (Node × Node)) : Spared (areKeysUnique entries) :=
  (spared_forM fun m _ => mismatch_spared m).bind fun _ => spared_pure _

theorem refuseCollection_spared (target : Target) (node : Node) :
    Spared (refuseCollection target node) := by
  unfold refuseCollection
  split
  · exact mismatch_spared _
  · refine (areKeysUnique_spared _).bind fun unique => ?_
    split_ifs
    · exact mismatch_spared _
    · exact spared_pure _
  · exact spared_pure _

theorem textOf_spared (a : Anchored) (active : List ℕ) (node : Node) :
    Spared (textOf a active node) := by
  refine (follow_yields a active node).spared.bind fun r => ?_
  split
  · exact (scalarOf_spared _ _).bind fun _ => spared_pure _
  · exact (refuseCollection_spared _ _).bind fun _ => spared_pure _

theorem integerOf_spared (a : Anchored) (active : List ℕ) (node : Node) :
    Spared (integerOf a active node) := by
  refine (follow_yields a active node).spared.bind fun r => ?_
  split
  · refine (scalarOf_spared _ _).bind fun m => ?_
    split
    · exact spared_pure _
    all_goals
      refine (spared_pure _).bind fun number? => ?_
      dsimp only
      split_ifs
      · exact (mismatch_spared _).bind fun _ => spared_pure _
      · exact spared_pure _
  · exact (refuseCollection_spared _ _).bind fun _ => spared_pure _

/-! ## Nodes with scalar keys -/

/-- The node is a scalar or a reference to one. -/
def Node.StandsForScalar (a : Anchored) (n : Node) : Prop :=
  ∃ line tag text, n.target a = .scalar line tag text

/-- All keys of mappings in a node stand for scalars. -/
inductive Node.ScalarKeys (a : Anchored) : Node → Prop
  | scalar (line : ℕ) (tag : Tag) (text : String) : ScalarKeys a (.scalar line tag text)
  | sequence (line : ℕ) (tag : Tag) {items : List Node} (h : ∀ n ∈ items, ScalarKeys a n) :
    ScalarKeys a (.sequence line tag items)
  | mapping (line : ℕ) (tag : Tag) {entries : List (Node × Node)}
    (hkey : ∀ e ∈ entries, e.1.StandsForScalar a) (hvalue : ∀ e ∈ entries, ScalarKeys a e.2) :
    ScalarKeys a (.mapping line tag entries)
  | reference (line : ℕ) (name : String) (number target : ℕ) :
    ScalarKeys a (.reference line name number target)

/-- All keys of mappings in the nodes with anchors stand for scalars. -/
def Anchored.ScalarKeys (a : Anchored) : Prop :=
  ∀ e ∈ a, e.2.ScalarKeys a

theorem Node.ScalarKeys.target (ha : a.ScalarKeys) {node : Node} (h : node.ScalarKeys a) :
    (node.target a).ScalarKeys a := by
  cases node with
  | reference line name number target =>
    rw [Node.target]
    cases hlookup : a.lookup target with
    | none => exact h
    | some n =>
      obtain ⟨before, after, rfl, -⟩ := List.lookup_eq_some_iff.mp hlookup
      exact ha (target, n) (by simp)
  | _ => exact h

theorem follow_scalarKeys (ha : a.ScalarKeys) {node : Node} (h : node.ScalarKeys a)
    (active : List ℕ) : Yields (follow a active node) fun r => r.val.2.ScalarKeys a := by
  refine (follow_yields a active node).mono fun r hr => ?_
  rw [hr]
  exact h.target ha

/-- A key that is a scalar, if any. -/
def IsScalarKey (k : Option Datum) : Prop :=
  ∀ d, k = some d → d.collection? = none

theorem isScalarKey_text (text : Option String) : IsScalarKey (text.map .text) := by
  intro d hd
  cases text with
  | none => cases hd
  | some text =>
    cases hd
    rfl

/-- Entries with scalar keys go into the sink without comparing any others. -/
structure Sink.Spares {top : List ℕ × Node} (sink : Sink a top σ) : Prop where
  key {active : List ℕ} {node : Node} (h : node.Below a top active)
    (hscalar : node.StandsForScalar a) : Yields (sink.key active node h) IsScalarKey
  any {active : List ℕ} {node : Node} (h : node.Below a top active)
    (hscalar : node.StandsForScalar a) : Yields (sink.any active node h) IsScalarKey
  put {active : List ℕ} {value : Node} (h : value.Below a top active) (s : σ) (node : Node)
    (k : Datum) (hvalue : value.ScalarKeys a) : Spared (sink.put active s node k value h)

namespace Sink

variable {top : List ℕ × Node} {sink : Sink a top σ} {active : List ℕ} {line : ℕ} {tag : Tag}
  {entries : List (Node × Node)}

theorem addKey_spared {k : Datum} (h : k.collection? = none) (keys : List Datum) :
    Spared (addKey keys k) := by
  unfold addKey
  rw [h]
  exact spared_pure _

theorem isNew_spared {k : Datum} (h : k.collection? = none) (present : Option (List Datum)) :
    Spared (isNew present k) := by
  cases present with
  | none => exact spared_pure _
  | some keys => exact (addKey_spared h keys).bind fun _ => spared_pure _

theorem takeOwn_spared (hsink : sink.Spares)
    (hbelow : ∀ e ∈ entries, e.1.Below a top active ∧ e.2.Below a top active)
    (h : (Node.mapping line tag entries).ScalarKeys a) (s : σ) :
    Spared (takeOwn sink active entries hbelow s) := by
  cases h with
  | mapping _ _ hkey hvalue =>
    refine spared_get.bind fun p => (spared_modify _).bind fun _ => ?_
    refine (spared_foldlM (fun r e _ => ?_) _).bind fun _ =>
      (spared_modify _).bind fun _ => spared_pure _
    obtain ⟨e, he⟩ := e
    dsimp only
    split_ifs
    · exact spared_pure _
    · refine (hsink.key (hbelow e he).1 (hkey e he)).bind fun k hk => ?_
      cases k with
      | none => exact spared_pure _
      | some k =>
        refine (isNew_spared (hk k rfl) _).bind fun r => ?_
        split_ifs
        · exact (hsink.put (hbelow e he).2 _ _ _ (hvalue e he)).bind fun _ => spared_pure _
        · exact spared_pure _

theorem presentOwn_spared (hsink : sink.Spares)
    (hbelow : ∀ e ∈ entries, e.1.Below a top active ∧ e.2.Below a top active)
    (h : (Node.mapping line tag entries).ScalarKeys a) :
    Spared (presentOwn sink active entries hbelow) := by
  cases h with
  | mapping _ _ hkey hvalue =>
    refine (spared_modify _).bind fun _ => spared_forM fun e _ => ?_
    refine (hsink.any (hbelow _ e.property).1 (hkey _ e.property)).bind fun k hk => ?_
    cases k with
    | none => exact spared_pure _
    | some k =>
      exact spared_get.bind fun _ => (addKey_spared (hk k rfl) _).bind fun _ => spared_modify _

theorem operands_scalarKeys (h : (Node.mapping line tag entries).ScalarKeys a) {ops : List Node}
    (hops : operands? entries = some ops) {n : Node} (hn : n ∈ ops) : n.ScalarKeys a := by
  cases h with
  | mapping _ _ _ hvalue =>
    obtain ⟨e, he, rfl | ⟨line', tag', items, heq, hitem⟩⟩ := mem_operands hops hn
    · exact hvalue e he
    · have hsequence := hvalue e he
      rw [heq] at hsequence
      cases hsequence with
      | sequence _ _ hitems => exact hitems n hitem

/-- The mappings that are named are nodes of the document as well, so what is taken in the end are
only entries with scalar keys. -/
theorem take_spared (ha : a.ScalarKeys) (hsink : sink.Spares) {node : Node}
    (hnode : node.ScalarKeys a) (h : node.weight a active ≤ top.2.weight a top.1) (s : σ) :
    Spared (take sink active node h s) := by
  -- a mapping that is named is lighter than the one that names it
  induction hweight : node.weight a active using Nat.strongRecOn generalizing active node s with
  | ind w ih =>
    subst hweight
    cases node with
    | mapping line tag entries =>
      rw [take]
      refine (takeOwn_spared hsink _ hnode s).bind fun s => ?_
      split
      · exact spared_pure s
      · rename_i ops hops
        extract_lets takeMerged
        have hmerged : ∀ s, Spared (ops.attach.foldlM takeMerged s) := by
          refine spared_foldlM fun s n _ => ?_
          have hn := operands_scalarKeys hnode hops n.property
          dsimp only [takeMerged]
          split_ifs
          · exact yields_throw (by simp)
          · refine (follow_scalarKeys ha hn active).bind fun r hmerged => ?_
            obtain ⟨⟨active', node⟩, hle⟩ := r
            cases node with
            | mapping =>
              refine (areKeysUnique_spared _).bind fun unique => ?_
              split_ifs
              · exact ih _ (Nat.lt_of_le_of_lt hle (weight_operand hops n.property active))
                  hmerged _ s rfl
              · exact spared_pure s
            | _ => exact spared_pure s
        refine spared_get.bind fun p => ?_
        split_ifs
        · exact hmerged s
        · exact (presentOwn_spared hsink _ hnode).bind fun _ =>
            (hmerged s).bind fun _ => (spared_modify _).bind fun _ => spared_pure _
    | _ =>
      rw [take]
      · exact spared_pure s
      · simp

end Sink

theorem anyOf_of_scalar {node : Node} (h : node.StandsForScalar a) (active : List ℕ) :
    Yields (anyOf a active node) IsScalarKey := by
  obtain ⟨line, tag, text, htarget⟩ := h
  rw [anyOf]
  refine (follow_yields a active node).bind fun r hr => ?_
  obtain ⟨⟨active', node'⟩, hle⟩ := r
  cases hr.trans htarget
  refine (scalarOf_spared _ _).bind fun m => yields_pure ?_
  intro d hd
  cases hd
  cases m.1 <;> rfl

/-- A node with scalar keys is decoded without comparing others. -/
theorem anyOf_spared (ha : a.ScalarKeys) {node : Node} (h : node.ScalarKeys a)
    (active : List ℕ) : Spared (anyOf a active node) := by
  induction hweight : node.weight a active using Nat.strongRecOn generalizing active node with
  | ind w ih =>
    subst hweight
    rw [anyOf]
    refine (follow_scalarKeys ha h active).bind fun r hnode => ?_
    obtain ⟨⟨active', node'⟩, hle⟩ := r
    cases node' with
    | scalar => exact (scalarOf_spared _ _).bind fun _ => spared_pure _
    | sequence line tag items =>
      cases hnode with
      | sequence _ _ hitems =>
        refine (spared_filterMapM fun n _ => ?_).bind fun _ => spared_pure _
        exact ih _ (Nat.lt_of_lt_of_le (Node.weight_item n.property) hle)
          (hitems _ n.property) active' rfl
    | mapping line tag entries =>
      refine (areKeysUnique_spared _).bind fun unique => ?_
      cases unique with
      | false => exact spared_pure _
      | true =>
        refine (Sink.take_spared ha ?_ hnode hle []).bind fun _ => spared_pure _
        constructor
        · -- keys are read as texts if all are, and as anything otherwise
          intro active key _ hscalar
          dsimp only
          split_ifs
          · exact (textOf_spared a active key).bind fun text => yields_pure (isScalarKey_text text)
          · exact anyOf_of_scalar hscalar active
        · intro active key _ hscalar
          exact anyOf_of_scalar hscalar active
        · intro active value hbelow table key k hvalue
          dsimp only
          split_ifs
          · exact yields_throw (by simp)
          · refine (ih _ hbelow hvalue active rfl).bind fun v => ?_
            cases v with
            | none => exact spared_pure _
            | some v => exact spared_pure _
    | reference => exact spared_pure _

/-! ## Settings -/

theorem Draft.assign_spared (a : Anchored) (active : List ℕ) (d : Draft) (key : String)
    (value : Node) : Spared (d.assign a active key value) := by
  unfold Draft.assign
  split
  · exact (textOf_spared a active value).bind fun _ => spared_pure _
  · exact (textOf_spared a active value).bind fun _ => spared_pure _
  · exact (integerOf_spared a active value).bind fun _ => spared_pure _
  · exact (integerOf_spared a active value).bind fun _ => spared_pure _

theorem Draft.put_spared (a : Anchored) (active : List ℕ) (d : Draft) (node : Node) (k : Datum)
    (value : Node) : Spared (d.put a active node k value) := by
  unfold Draft.put
  split
  · split_ifs
    · exact (mismatch_spared _).bind fun _ => spared_pure _
    · exact (mismatch_spared _).bind fun _ => spared_pure _
    · exact assign_spared a active _ _ value
  · exact spared_pure _

theorem Draft.sink_spares (a : Anchored) (top : List ℕ × Node) : (Draft.sink a top).Spares where
  key _ _ := (textOf_spared a _ _).bind fun text => yields_pure (isScalarKey_text text)
  any _ hscalar := anyOf_of_scalar hscalar _
  put _ d node k _ := d.put_spared a _ node k _

theorem decodeNode_spared (ha : a.ScalarKeys) (s : Settings) {node : Node} (h : node.ScalarKeys a) :
    Spared (decodeNode a s node) := by
  refine (countNode_spared _).bind fun _ => ?_
  refine (follow_scalarKeys ha h []).bind fun r hnode => ?_
  obtain ⟨⟨active, node'⟩, hle⟩ := r
  cases node' with
  | scalar line tag text =>
    refine (scalarOf_spared _ _).bind fun m => ?_
    dsimp only
    split_ifs
    · exact (mismatch_spared _).bind fun _ => spared_pure _
    · exact spared_pure _
  | mapping line tag entries =>
    refine (areKeysUnique_spared _).bind fun unique => ?_
    cases unique with
    | false => exact spared_pure _
    | true =>
      exact (Sink.take_spared ha (Draft.sink_spares a _) hnode _ _).bind fun _ => spared_pure _
  | sequence => exact (refuseCollection_spared _ _).bind fun _ => spared_pure _
  | reference => exact (refuseCollection_spared _ _).bind fun _ => spared_pure _

/-! ## Crashes -/

theorem reading_crashed {e : Error} (h : reading d = .crashed e) :
    (∃ type, e = .fault (.unhashableKey type)) ∧ ¬Spared d := by
  unfold reading at h
  split at h
  · rename_i o hrun
    unfold Obstacle.reading at h
    split at h
    · rename_i type
      cases h
      refine ⟨⟨type, rfl⟩, fun hspared => ?_⟩
      rcases hspared .start with ⟨x, p, hok, -⟩ | ⟨o, herror, hobstacle⟩
      · cases hrun.symm.trans hok
      · cases hrun.symm.trans herror
        exact hobstacle type rfl
    · cases h
  · split_ifs at h

theorem nextReading_crashed {r : Reader} {decode : Anchored → Node → Decode α} {e : Error}
    (h : nextReading r decode = .crashed e) :
    ∃ node r', Reader.readDocument.run r = .ok (some node, r') ∧
      reading (decode r'.anchored node) = .crashed e := by
  unfold nextReading at h
  split at h
  · cases h
  · cases h
  · rename_i node r' hdocument
    exact ⟨node, r', hdocument, h⟩

/-- All keys in the first two documents of a text stand for scalars. -/
def HasScalarKeys (text : String) : Prop :=
  ∀ node r, Reader.readDocument.run (.start text) = .ok (some node, r) →
    (node.ScalarKeys r.anchored ∧ r.anchored.ScalarKeys) ∧
      ∀ node' r', Reader.readDocument.run r = .ok (some node', r') →
        node'.ScalarKeys r'.anchored ∧ r'.anchored.ScalarKeys

theorem first_crashed {s : Settings} {text : String} {e : Error}
    (h : format.first s text = .crashed e) :
    (∃ type, e = .fault (.unhashableKey type)) ∧ ¬HasScalarKeys text := by
  dsimp only [format] at h
  obtain ⟨node, r, hdocument, hcrashed⟩ := nextReading_crashed h
  obtain ⟨htype, hspared⟩ := reading_crashed hcrashed
  refine ⟨htype, fun hkeys => hspared ?_⟩
  obtain ⟨⟨hnode, ha⟩, -⟩ := hkeys node r hdocument
  exact decodeNode_spared ha s hnode

/-- A second document is decoded before it is refused. -/
theorem second_crashed {text : String} {e : Error} (h : format.second text = .crashed e) :
    (∃ type, e = .fault (.unhashableKey type)) ∧ ¬HasScalarKeys text := by
  dsimp only [format] at h
  split at h
  · rename_i node r hfirst
    obtain ⟨node', r', hsecond, hcrashed⟩ := nextReading_crashed h
    obtain ⟨htype, hspared⟩ := reading_crashed hcrashed
    refine ⟨htype, fun hkeys => hspared ?_⟩
    obtain ⟨hnode, ha⟩ := (hkeys node r hfirst).2 node' r' hsecond
    exact (countNode_spared _).bind fun _ =>
      (anyOf_spared ha hnode []).bind fun _ => spared_pure _
  · cases h

/-- What crashes the decoder is a key that cannot be compared, and no text whose keys all stand for
scalars does. -/
theorem format_crashes {s : Settings} {text : String} {e : Error} (h : format.Crashes s text e) :
    (∃ type, e = .fault (.unhashableKey type)) ∧ ¬HasScalarKeys text := by
  cases h with
  | first hfirst => exact first_crashed hfirst
  | second _ hsecond => exact second_crashed hsecond

end Numerals.Document
