import Numerals.Document.Decoder
import Numerals.Document.Reader
import Numerals.Settings.Decode

/-!
# Settings as documents

The format of texts with settings: a document is a mapping with the keys `style`, `precision`,
`radix` and `history`, each of which may be left out or have a null value. All mismatches between
the mapping and the settings are reported together, but a mapping with repeated keys for these only.
-/

namespace Numerals.Document

/-- Settings in the making, and the keys that the present mapping has set. -/
structure Draft where
  settings : Settings
  done : List String
deriving Repr, Inhabited

namespace Draft

/-- A draft with the setting `key` changed to the value of a node, unless it is null. -/
def assign (a : Anchored) (active : List Nat) (d : Draft) (key : String) (value : Node) :
    Decode Draft := do
  let s := d.settings
  match key with
  | "style" =>
    let v ← textOf a active value
    return { d with settings := { s with style := v.getD s.style } }
  | "history" =>
    let v ← textOf a active value
    return { d with settings := { s with history := v.getD s.history } }
  | "precision" =>
    let v ← integerOf a active value
    return { d with settings := { s with precision := v.getD s.precision } }
  | _ =>
    let v ← integerOf a active value
    return { d with settings := { s with radix := v.getD s.radix } }

/-- The keys that settings have. -/
def keys : List String := ["style", "precision", "radix", "history"]

/-- A draft with the entry of a mapping. -/
def put (a : Anchored) (active : List Nat) (d : Draft) (keyNode : Node) (key : Datum)
    (value : Node) : Decode Draft := do
  match key with
  | .text key =>
    if !keys.contains key then
      mismatch (.unknownKey keyNode.line key)
      return d
    else if d.done.contains key then
      mismatch (.repeatedField keyNode.line key)
      return d
    else assign a active { d with done := key :: d.done } key value
  | _ => return d

/-- Drafts take the entries of mappings. -/
def sink (a : Anchored) (top : List Nat × Node) : Sink a top Draft where
  key active node _ := do return (← textOf a active node).map Datum.text
  any active node _ := anyOf a active node
  start d := { d with done := [] }
  put active d keyNode key value _ := d.put a active keyNode key value

end Draft

/-- The settings `s` with the changes that a node makes. -/
def decodeNode (a : Anchored) (s : Settings) (node : Node) : Decode Settings := do
  countNode false
  let ⟨(active, node), _⟩ ← follow a [] node
  match node with
  | .scalar line tag text =>
    let (meaning, _) ← scalarOf tag text
    if meaning ≠ .null then mismatch (.node line tag text .settings)
    return s
  | .mapping line tag entries =>
    if ← areKeysUnique entries then
      let top := Node.mapping line tag entries
      let d ← (Draft.sink a (active, top)).take active top (Nat.le_refl _) ⟨s, []⟩
      return d.settings
    else return s
  | node =>
    refuseCollection .settings node
    return s

/-- What an obstacle makes of a document. A key that cannot be compared with others is a crash. -/
def Obstacle.reading {α : Type} : Obstacle → Settings.Reading α
  | unhashableKey type => .crashed (.fault (.unhashableKey type))
  | o => .refused ("yaml: " ++ o.message)

/-- What decoding makes of a document. -/
def reading {α : Type} (d : Decode α) : Settings.Reading α :=
  match d.run .start with
  | .error o => o.reading
  | .ok (x, p) =>
    if p.mismatches.isEmpty then .document x
    else
      .refused ("yaml: unmarshal errors:\n  " ++
        "\n  ".intercalate (p.mismatches.reverse.map Mismatch.message))

/-- What becomes of the next document of a text, if it is decoded by `decode`. -/
def nextReading {α : Type} (r : Reader) (decode : Anchored → Node → Decode α) :
    Settings.Reading α :=
  match Reader.readDocument.run r with
  | .error p => .refused ("yaml: " ++ p.text)
  | .ok (none, _) => .nothing
  | .ok (some node, r) => reading (decode r.anchored node)

/-- The format of texts with settings. -/
def format : Settings.Format where
  first s text := nextReading (.start text) fun a node => decodeNode a s node
  second text :=
    match Reader.readDocument.run (.start text) with
    | .ok (some _, r) => nextReading r fun a node => do
      countNode false
      discard (anyOf a [] node)
    | _ => .nothing

end Numerals.Document
