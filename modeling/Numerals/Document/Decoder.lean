import Numerals.Document.Datum
import Numerals.Text.Bytes

/-!
# Decoding of nodes

Nodes are decoded as what is expected of them: a text, an integer, or anything. A node that does not
fit is a `Mismatch`; decoding goes on after it, and all mismatches are reported together. An
`Obstacle` ends decoding at once.

References are followed, but not into themselves, and no more often than is allowed for the number
of nodes decoded. The key `<<` of a mapping stands for the entries of other mappings, as far as
their keys are not among its own.
-/

namespace Numerals.Document

/-- What a node is needed as. -/
inductive Target where
  | settings
  | text
  | integer
deriving DecidableEq, Repr, Inhabited

/-- The name of a target. -/
def Target.name : Target → String
  | settings => "rtconfig.Config"
  | text => "string"
  | integer => "int"

/-- A node that does not fit. -/
inductive Mismatch where
  | node (line : Nat) (tag : Tag) (text : String) (target : Target)
  | unknownKey (line : Nat) (key : String)
  | repeatedKey (line : Nat) (key : String) (before : Nat)
  | repeatedField (line : Nat) (key : String)
deriving DecidableEq, Repr, Inhabited

/-- The characters of `cs` that lie in its first `n` bytes. A character that is cut in two leaves a
replacement character for each of its bytes. -/
def cutBytes : Nat → List Char → List Char
  | _, [] => []
  | n, c :: cs =>
    if c.utf8Size ≤ n then c :: cutBytes (n - c.utf8Size) cs
    else List.replicate n (Char.ofNat 0xFFFD)

/-- A text for a message: one of more than ten bytes is cut after the seventh. -/
def shorten (s : String) : String :=
  if 10 < s.utf8ByteSize then String.ofList (cutBytes 7 s.toList) ++ "..." else s

namespace Mismatch

open Text in
/-- What a mismatch says. The text of a node is quoted unless its tag is that of a collection. -/
def message : Mismatch → String
  | node line tag text target =>
    let shown := if tag = .sequence || tag = .mapping then text else " `" ++ shorten text ++ "`"
    "line " ++ decimal line ++ ": cannot unmarshal " ++ tag.name ++ shown ++ " into " ++ target.name
  | unknownKey line key =>
    "line " ++ decimal line ++ ": field " ++ key ++ " not found in type rtconfig.Config"
  | repeatedKey line key before =>
    "line " ++ decimal line ++ ": mapping key " ++ quote key ++ " already defined at line " ++
      decimal before
  | repeatedField line key =>
    "line " ++ decimal line ++ ": field " ++ key ++ " already set in type rtconfig.Config"

end Mismatch

/-- What ends decoding at once. -/
inductive Obstacle where
  | selfReference (name : String)
  | excessiveReferences
  | mergeOperand
  | wrongTag (found wanted : Tag) (text : String)
  | invalidBinary
  | invalidKey (key : String)
  | unhashableKey (type : String)
deriving DecidableEq, Repr, Inhabited

/-- What an obstacle says. -/
def Obstacle.message : Obstacle → String
  | selfReference name => "anchor '" ++ name ++ "' value contains itself"
  | excessiveReferences => "document contains excessive aliasing"
  | mergeOperand => "map merge requires map or sequence of maps as the value"
  | wrongTag found wanted text =>
    "cannot decode " ++ found.name ++ " `" ++ text ++ "` as a " ++ wanted.name
  | invalidBinary => "!!binary value contains invalid base64 data"
  | invalidKey key => "invalid map key: " ++ key
  | unhashableKey type => (Fault.unhashableKey type).message

/-- The state of decoding: the mismatches so far, the last one first, how many nodes have been
decoded, how many of these by way of references, and the keys that the next mapping passes over if
its entries are merged into another one. -/
structure Progress where
  mismatches : List Mismatch
  steps : Nat
  referenced : Nat
  present : Option (List Datum)
deriving Repr, Inhabited

/-- The state at the start of a document. -/
def Progress.start : Progress := ⟨[], 0, 0, none⟩

/-- A step of decoding. -/
abbrev Decode (α : Type) := StateT Progress (Except Obstacle) α

/-- Whether too many nodes are decoded by way of references. Up to 400000 nodes 99 in 100 may be,
from 4000000 nodes on one in ten, and in between the share falls evenly. -/
def isExcessive (steps referenced : Nat) : Bool :=
  100 < referenced && 1000 < steps &&
    (if steps ≤ 400000 then 99 * steps < 100 * referenced
    else if 4000000 ≤ steps then steps < 10 * referenced
    else steps * (99 * 3600000 - 89 * (steps - 400000)) < 360000000 * referenced)

/-- Counts a node. -/
def countNode (isReferenced : Bool) : Decode Unit := do
  let p ← get
  let steps := p.steps + 1
  let referenced := if isReferenced then p.referenced + 1 else p.referenced
  set { p with steps, referenced }
  if isExcessive steps referenced then throw .excessiveReferences

/-- Notes a mismatch. -/
def mismatch (m : Mismatch) : Decode Unit :=
  modify fun p => { p with mismatches := m :: p.mismatches }

/-- Counts a node and follows it if it is a reference. `active` are the numbers of the references
that are being followed. The node that this leads to is not heavier. -/
def follow (a : Anchored) (active : List Nat) : (node : Node) →
    Decode { r : List Nat × Node // r.2.weight a r.1 ≤ node.weight a active }
  | .reference line name number target => do
    countNode (!active.isEmpty)
    if h : number ∈ active then throw (.selfReference name)
    else
      countNode true
      return ⟨(number :: active, (Node.reference line name number target).target a),
        Node.weight_target h⟩
  | node => do
    countNode (!active.isEmpty)
    return ⟨(active, node), Nat.le_refl _⟩

/-- What a scalar means, which must agree with its tag. An integer may count as a floating-point
number. -/
def meaningOf (tag : Tag) (text : String) : Decode Meaning := do
  if !tag.isResolved || tag = .text then return .text
  let m := Meaning.ofText (tag = .timestamp) text
  if m.tag = tag then return m
  match tag, m with
  | .float, .integer n =>
    if Text.isInt64 n then return .float (.ofInt n) else throw (.wrongTag m.tag tag text)
  | _, _ => throw (.wrongTag m.tag tag text)

/-- What a scalar means and the text it holds, which differs from what is written if its tag says
that it is binary. -/
def scalarOf (tag : Tag) (text : String) : Decode (Meaning × String) := do
  if tag = .binary then
    match Text.base64? text with
    | some bytes => return (.text, Text.ofBytes bytes)
    | none => throw .invalidBinary
  else return (← meaningOf tag text, text)

/-- The repetitions of each key in the entries after it. -/
def repeatedKeys : List (Node × Node) → List Mismatch
  | [] => []
  | (key, _) :: entries =>
    (entries.filter fun e => key.sameKey e.1).map
      (fun e => .repeatedKey e.1.line e.1.text key.line) ++ repeatedKeys entries

/-- Whether no key is repeated. Repetitions are mismatches. -/
def areKeysUnique (entries : List (Node × Node)) : Decode Bool := do
  let ms := repeatedKeys entries
  ms.forM mismatch
  return ms.isEmpty

/-- Notes that a collection does not fit. -/
def refuseCollection (target : Target) : Node → Decode Unit
  | .sequence line tag _ => mismatch (.node line tag "" target)
  | .mapping line tag entries => do
    if ← areKeysUnique entries then mismatch (.node line tag "" target)
  | _ => return ()

/-- A text: any scalar that is not null. -/
def textOf (a : Anchored) (active : List Nat) (node : Node) : Decode (Option String) := do
  match (← follow a active node).val.2 with
  | .scalar _ tag text =>
    let (meaning, text) ← scalarOf tag text
    return if meaning = .null then none else some text
  | node =>
    refuseCollection .text node
    return none

/-- A double without its fraction, as a 64-bit word. Numbers below the range of words, and the first
one above it, give the least word; numbers further above and NaN give none. -/
def wordOf? (x : Binary64) : Option Int :=
  match x.value with
  | .nan => none
  | .infinite negative => if negative then some LongWord.least else none
  | .finite negative m e =>
    let n := Text.signedInt negative (m * twoPow e.toNat / twoPow (-e).toNat)
    if -LongWord.least < n then none
    else if Text.isInt64 n then some n
    else some LongWord.least

/-- An integer in the range of words. -/
def integerOf (a : Anchored) (active : List Nat) (node : Node) : Decode (Option Int) := do
  match (← follow a active node).val.2 with
  | .scalar line tag text =>
    let number? ← match (← scalarOf tag text).1 with
      | .null => return none
      | .integer n => pure (if Text.isInt64 n then some n else none)
      | .float x => pure (wordOf? x)
      | _ => pure none
    if number?.isNone then mismatch (.node line tag text .integer)
    return number?
  | node =>
    refuseCollection .integer node
    return none

/-- The node comes after the one at the top: it is lighter. -/
def Node.Below (a : Anchored) (top : List Nat × Node) (active : List Nat) (node : Node) : Prop :=
  node.weight a active < top.2.weight a top.1

/-- What the entries of a mapping below `top` go into. `key` decodes a key and `any` one of which
nothing is expected, `start` prepares for the entries of one more mapping, and `put` takes an
entry. -/
structure Sink (a : Anchored) (top : List Nat × Node) (σ : Type) where
  key (active : List Nat) (node : Node) (h : node.Below a top active) : Decode (Option Datum)
  any (active : List Nat) (node : Node) (h : node.Below a top active) : Decode (Option Datum)
  start : σ → σ
  put (active : List Nat) (s : σ) (keyNode : Node) (key : Datum) (value : Node)
    (h : value.Below a top active) : Decode σ

namespace Sink

variable {a : Anchored} {top : List Nat × Node} {σ : Type}

/-- Adds a key to keys, unless it is among them. -/
def addKey (keys : List Datum) (key : Datum) : Decode (Bool × List Datum) :=
  match key.collection? with
  | some type => throw (.unhashableKey type)
  | none => return if keys.any key.same then (false, keys) else (true, key :: keys)

/-- Adds a key to the keys already present, unless it is among them. Without such keys, any key is
new. -/
def isNew (present : Option (List Datum)) (key : Datum) : Decode (Bool × Option (List Datum)) :=
  match present with
  | none => return (true, none)
  | some keys => do
    let (new, keys) ← addKey keys key
    return (new, some keys)

/-- Takes the entries of a mapping, apart from those that it stands for. -/
def takeOwn (sink : Sink a top σ) (active : List Nat) (entries : List (Node × Node))
    (h : ∀ e ∈ entries, e.1.Below a top active ∧ e.2.Below a top active) (s : σ) : Decode σ := do
  let present := (← get).present
  modify fun p => { p with present := none }
  let (s, present) ← entries.attach.foldlM (fun (s, present) ⟨(key, value), he⟩ => do
    if key.isMerge then return (s, present)
    match ← sink.key active key (h _ he).1 with
    | none => return (s, present)
    | some k =>
      let (new, present) ← isNew present k
      if new then return (← sink.put active s key k value (h _ he).2, present)
      else return (s, present))
    (sink.start s, present)
  modify fun p => { p with present }
  return s

/-- Makes the keys of a mapping the ones that are present. -/
def presentOwn (sink : Sink a top σ) (active : List Nat) (entries : List (Node × Node))
    (h : ∀ e ∈ entries, e.1.Below a top active ∧ e.2.Below a top active) : Decode Unit := do
  modify fun p => { p with present := some [] }
  entries.attach.forM fun e => do
    match ← sink.any active e.val.1 (h _ e.property).1 with
    | none => return ()
    | some k =>
      let (_, keys) ← addKey ((← get).present.getD []) k
      modify fun p => { p with present := some keys }

/-- The mapping or mappings in the value of the last key `<<`, if there is one. -/
def operands? (entries : List (Node × Node)) : Option (List Node) :=
  match (entries.filter fun e => e.1.isMerge).getLast? with
  | none => none
  | some (_, .sequence _ _ items) => some items
  | some (_, operand) => some [operand]

theorem mem_operands {entries : List (Node × Node)} {ops : List Node} {n : Node}
    (hops : operands? entries = some ops) (hn : n ∈ ops) :
    ∃ e ∈ entries, e.2 = n ∨ ∃ line tag items, e.2 = .sequence line tag items ∧ n ∈ items := by
  unfold operands? at hops
  split at hops
  · cases hops
  · rename_i hlast
    cases hops
    have hmem := (List.mem_filter.mp (List.mem_of_getLast? hlast)).1
    exact ⟨_, hmem, .inr ⟨_, _, _, rfl, hn⟩⟩
  · rename_i hlast
    cases hops
    cases List.mem_singleton.mp hn
    have hmem := (List.mem_filter.mp (List.mem_of_getLast? hlast)).1
    exact ⟨_, hmem, .inl rfl⟩

theorem weight_operand {line : Nat} {tag : Tag} {entries : List (Node × Node)} {ops : List Node}
    {n : Node} (hops : operands? entries = some ops) (hn : n ∈ ops) (active : List Nat) :
    n.weight a active < (Node.mapping line tag entries).weight a active := by
  obtain ⟨e, he, rfl | ⟨line', tag', items, hvalue, hitem⟩⟩ := mem_operands hops hn
  · exact (Node.weight_entry he).2
  · have hless : n.weight a active < e.2.weight a active := by
      rw [hvalue]
      exact Node.weight_item hitem
    exact Nat.lt_trans hless (Node.weight_entry he).2

theorem below_entry {active : List Nat} {line : Nat} {tag : Tag} {entries : List (Node × Node)}
    {e : Node × Node} (h : (Node.mapping line tag entries).weight a active ≤ top.2.weight a top.1)
    (he : e ∈ entries) : e.1.Below a top active ∧ e.2.Below a top active :=
  ⟨Nat.lt_of_lt_of_le (Node.weight_entry he).1 h, Nat.lt_of_lt_of_le (Node.weight_entry he).2 h⟩

/-- Takes the entries of a mapping, and then those of the mappings that its key `<<` names, apart
from the keys already present. -/
def take (sink : Sink a top σ) (active : List Nat) (node : Node)
    (h : node.weight a active ≤ top.2.weight a top.1) (s : σ) : Decode σ :=
  match node with
  | .mapping line tag entries => do
    have hentries := fun _ he => below_entry h he
    let s ← takeOwn sink active entries hentries s
    match hops : operands? entries with
    | none => return s
    | some ops =>
      let takeMerged := fun s (n : { n // n ∈ ops }) => do
        if !(n.val.target a).isMapping then throw .mergeOperand
        match ← follow a active n.val with
        | ⟨(active', .mapping line' tag' entries'), hmerged⟩ =>
          have hless := Nat.lt_of_le_of_lt hmerged (weight_operand hops n.property active)
          if ← areKeysUnique entries' then
            take sink active' (.mapping line' tag' entries') (Nat.le_trans (Nat.le_of_lt hless) h) s
          else return s
        | _ => return s
      if (← get).present.isSome then ops.attach.foldlM takeMerged s
      else
        presentOwn sink active entries hentries
        let s ← ops.attach.foldlM takeMerged s
        modify fun p => { p with present := none }
        return s
  | _ => return s
termination_by node.weight a active

end Sink

/-- Anything. -/
def anyOf (a : Anchored) (active : List Nat) (node : Node) : Decode (Option Datum) := do
  match ← follow a active node with
  | ⟨(_, .scalar _ tag text), _⟩ =>
    let (meaning, text) ← scalarOf tag text
    return some (.ofMeaning text meaning)
  | ⟨(active', .sequence _ _ items), htarget⟩ =>
    let values ← items.attach.filterMapM fun n =>
      have _ := Nat.lt_of_lt_of_le (Node.weight_item n.property) htarget
      anyOf a active' n.val
    return some (.list values)
  | ⟨(active', .mapping line tag entries), htarget⟩ =>
    if !(← areKeysUnique entries) then return none
    let named := entries.all fun e => e.1.tag a = .text || e.1.tag a = .merge
    let sink : Sink a (active, node) (List (Datum × Datum)) :=
      { key := fun active key _ => do
          if named then return (← textOf a active key).map Datum.text else anyOf a active key
        any := fun active node _ => anyOf a active node
        start := id
        put := fun active table _ key value _ => do
          if key.collection?.isSome then throw (.invalidKey key.shown)
          match ← anyOf a active value with
          | some d => return Datum.put key d table
          | none => return table }
    return some (.table named (← sink.take active' (.mapping line tag entries) htarget []))
  | ⟨(_, .reference ..), _⟩ => return none
termination_by node.weight a active

end Numerals.Document
