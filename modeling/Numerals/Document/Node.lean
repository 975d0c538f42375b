/-!
# Nodes of documents

The content of a document is a scalar, a sequence or a mapping. Every node knows the line it starts
on, counted from one, and has a tag. A reference stands for the node with a given anchor; as it may
stand inside of that node, it only holds the number under which the node is kept. References have
numbers of their own, so that each can be told from the others.

Nodes are gone through from the top, and references are followed, but not into themselves. The
`weight` of a node, at a place where some references are being followed, bounds what is still to
come: a reference that is followed is one less to be followed below it, and any other step leads to
a smaller node.
-/

namespace Numerals.Document

/-- What kind of node a node is. -/
inductive Tag where
  | null
  | truth
  | integer
  | float
  | timestamp
  | text
  | binary
  | merge
  | sequence
  | mapping
  | other (name : String)
deriving DecidableEq, Repr, Inhabited

namespace Tag

/-- The name of a tag. -/
def name : Tag → String
  | null => "!!null"
  | truth => "!!bool"
  | integer => "!!int"
  | float => "!!float"
  | timestamp => "!!timestamp"
  | text => "!!str"
  | binary => "!!binary"
  | merge => "!!merge"
  | sequence => "!!seq"
  | mapping => "!!map"
  | other name => name

/-- The tags that have a name of their own. -/
def known : List Tag :=
  [null, truth, integer, float, timestamp, text, binary, merge, sequence, mapping]

/-- What the names of common tags start with when they are written in full. -/
def commonStart : String := "tag:yaml.org,2002:"

/-- A name as it is shown: the start of common names is shortened. -/
def shorten (name : String) : String :=
  if commonStart.isPrefixOf name then
    "!!" ++ String.ofList (name.toList.drop commonStart.length)
  else name

/-- The tag with a given name, which may be written in full. -/
def ofName (name : String) : Tag :=
  let short := shorten name
  (known.find? fun t => t.name == short).getD (other short)

/-- Whether a scalar with this tag has to be read as what the tag says. -/
def isResolved : Tag → Bool
  | null | truth | integer | float | timestamp | text => true
  | _ => false

end Tag

/-- A node of a document. -/
inductive Node where
  | scalar (line : Nat) (tag : Tag) (text : String)
  | sequence (line : Nat) (tag : Tag) (items : List Node)
  | mapping (line : Nat) (tag : Tag) (entries : List (Node × Node))
  | reference (line : Nat) (name : String) (number target : Nat)
deriving Repr, Inhabited

/-- The nodes that have an anchor, with their numbers. -/
abbrev Anchored := List (Nat × Node)

namespace Node

/-- The line that a node starts on. -/
def line : Node → Nat
  | scalar line .. | sequence line .. | mapping line .. | reference line .. => line

/-- The text of a scalar, the name of a reference, and nothing for other nodes. -/
def text : Node → String
  | scalar _ _ s => s
  | reference _ name _ _ => name
  | _ => ""

/-- Whether two keys of a mapping are the same: nodes of one form by their text. -/
def sameKey (a b : Node) : Bool :=
  match a, b with
  | scalar .., scalar .. | sequence .., sequence .. | mapping .., mapping .. => a.text == b.text
  | reference .., reference .. => a.text == b.text
  | _, _ => false

/-- Whether a key stands for the entries of other mappings. -/
def isMerge : Node → Bool
  | scalar _ tag s => tag = .merge && s = "<<"
  | _ => false

/-- Whether a node is a mapping. -/
def isMapping : Node → Bool
  | mapping .. => true
  | _ => false

/-- The node that a node stands for. -/
def target (a : Anchored) : Node → Node
  | reference line name number target =>
    (a.lookup target).getD (reference line name number target)
  | n => n

/-- The tag of a node, or of the node that it stands for. -/
def tag (a : Anchored) (n : Node) : Tag :=
  match n.target a with
  | scalar _ tag _ | sequence _ tag _ | mapping _ tag _ => tag
  | reference .. => .other ""

end Node

/-! ## Weights -/

/-- How many of the numbers below `n` are not among `active`. -/
def unfollowed (active : List Nat) : Nat → Nat
  | 0 => 0
  | n + 1 => unfollowed active n + if n ∈ active then 0 else 1

theorem unfollowed_mono (active : List Nat) {m n : Nat} (h : m ≤ n) :
    unfollowed active m ≤ unfollowed active n := by
  induction h with
  | refl => exact Nat.le_refl _
  | step _ ih => exact Nat.le_trans ih (Nat.le_add_right _ _)

theorem unfollowed_cons_le (active : List Nat) (k n : Nat) :
    unfollowed (k :: active) n ≤ unfollowed active n := by
  induction n with
  | zero => exact Nat.le_refl _
  | succ n ih =>
    simp only [unfollowed]
    split
    · omega
    · rename_i hnot
      rw [if_neg fun hmem => hnot (List.mem_cons_of_mem k hmem)]
      omega

theorem unfollowed_cons_lt {active : List Nat} {k n : Nat} (hk : k ∉ active) (hn : k < n) :
    unfollowed (k :: active) n < unfollowed active n := by
  induction hn with
  | refl =>
    have hle := unfollowed_cons_le active k k
    simp only [unfollowed, List.mem_cons_self, if_true, hk, if_false]
    omega
  | step hlt ih =>
    have hne : ∀ m, k < m → (m ∈ k :: active ↔ m ∈ active) := by
      intro m hm
      simp [Nat.ne_of_gt hm]
    simp only [unfollowed, hne _ hlt]
    omega

namespace Node

/-- The weight of a node where the references with the numbers `active` are being followed. The size
of a node is more than the numbers of all references in it. -/
noncomputable def weight (a : Anchored) (active : List Nat) (node : Node) : Nat :=
  unfollowed active (max (sizeOf a) (sizeOf node)) * sizeOf a + sizeOf node

variable {a : Anchored} {active : List Nat}

theorem weight_lt_of_sizeOf {n m : Node} (h : sizeOf n < sizeOf m) :
    n.weight a active < m.weight a active := by
  have hle := Nat.mul_le_mul_right (sizeOf a) (unfollowed_mono active
    (show max (sizeOf a) (sizeOf n) ≤ max (sizeOf a) (sizeOf m) by omega))
  unfold weight
  omega

theorem weight_item {line : Nat} {tag : Tag} {items : List Node} {n : Node} (h : n ∈ items) :
    n.weight a active < (sequence line tag items).weight a active := by
  have hmem := List.sizeOf_lt_of_mem h
  apply weight_lt_of_sizeOf
  rw [sequence.sizeOf_spec]
  omega

theorem weight_entry {line : Nat} {tag : Tag} {entries : List (Node × Node)} {e : Node × Node}
    (h : e ∈ entries) :
    e.1.weight a active < (mapping line tag entries).weight a active ∧
      e.2.weight a active < (mapping line tag entries).weight a active := by
  have hmem := List.sizeOf_lt_of_mem h
  have hsize := mapping.sizeOf_spec line tag entries
  obtain ⟨key, value⟩ := e
  rw [Prod.mk.sizeOf_spec] at hmem
  constructor
  · exact weight_lt_of_sizeOf (show sizeOf key < _ by omega)
  · exact weight_lt_of_sizeOf (show sizeOf value < _ by omega)

theorem weight_cons_le (number : Nat) (n : Node) :
    n.weight a (number :: active) ≤ n.weight a active :=
  Nat.add_le_add_right (Nat.mul_le_mul_right _ (unfollowed_cons_le active number _)) _

/-- However large a node is that is kept, a further reference that is followed outweighs it. -/
theorem weight_kept {number : Nat} {n m : Node} (hnumber : number ∉ active) (hm : number < sizeOf m)
    (hn : sizeOf n < sizeOf a) : n.weight a (number :: active) ≤ m.weight a active := by
  have hless : unfollowed (number :: active) (max (sizeOf a) (sizeOf n)) <
      unfollowed active (max (sizeOf a) (sizeOf m)) :=
    Nat.lt_of_le_of_lt (unfollowed_mono _ (by omega)) (unfollowed_cons_lt hnumber (by omega))
  have hmul := Nat.mul_le_mul_right (sizeOf a) hless
  rw [Nat.succ_mul] at hmul
  unfold weight
  omega

/-- A reference stands for a node that is kept, or else for itself. -/
theorem weight_target {line number target : Nat} {name : String} (hnumber : number ∉ active) :
    ((reference line name number target).target a).weight a (number :: active) ≤
      (reference line name number target).weight a active := by
  cases hlookup : a.lookup target with
  | none =>
    rw [Node.target, hlookup]
    exact weight_cons_le number _
  | some n =>
    have hmem : (target, n) ∈ a := by
      obtain ⟨before, after, rfl, -⟩ := List.lookup_eq_some_iff.mp hlookup
      simp
    have hsize := List.sizeOf_lt_of_mem hmem
    rw [Prod.mk.sizeOf_spec] at hsize
    rw [Node.target, hlookup]
    apply weight_kept hnumber
    · rw [reference.sizeOf_spec, sizeOf_nat number]
      omega
    · exact (show sizeOf n < sizeOf a by omega)

end Node

end Numerals.Document
