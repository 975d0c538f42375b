import Numerals.Document.Lexer
import Numerals.Document.Scalar

/-!
# Reading of documents

A text holds any number of documents, divided by lines with the mark `---` and ended by lines with
the mark `...`. The content of a document is a scalar, a sequence or a mapping, in block style,
where columns show the structure, or in flow style, between brackets and braces.

A `Reader` makes nodes from tokens, one document after the other, so that what stands behind a
document is only looked at when it is asked for. Anchors are known from where they stand to the end
of the text; the last one with a name counts. Recursion is bounded by `fuel`, of which every
character of the text uses up a fixed amount at most.
-/

namespace Numerals.Document

/-- The state of reading documents. `handles` are the handles of tags with their expansions,
`anchors` the anchors with the numbers of their nodes, the last one first, and `anchored` the nodes.
`next` is a number that is not yet in use. -/
structure Reader where
  lexer : Lexer
  handles : List (String × String)
  anchors : List (String × Nat)
  anchored : Anchored
  next : Nat
  isFirst : Bool
deriving Repr, Inhabited

/-- A step of reading documents. -/
abbrev Parse (α : Type) := StateT Reader (Except Problem) α

/-- The handles that every document has. -/
def commonHandles : List (String × String) :=
  [("!", "!"), ("!!", Tag.commonStart)]

namespace Reader

/-- The reader at the start of a text. -/
def start (s : String) : Reader :=
  ⟨.start s, [], [], [], 0, true⟩

/-- The next token, which stays the next one. -/
def peek : Parse Token := do
  let r ← get
  let lx ← r.lexer.fill
  set { r with lexer := lx }
  return lx.front

/-- Passes the next token. -/
def pass : Parse Unit :=
  modify fun r => { r with lexer := r.lexer.drop }

/-- The token after the next one, which is passed. -/
def passPeek : Parse Token := do
  pass
  peek

/-- Stops at the token `t` within a construct that starts on the line `context`. -/
def stop {α : Type} (t : Token) (d : Defect) (context : Nat) : Parse α :=
  throw ⟨d, context, t.line⟩

/-- A number that is not yet in use. -/
def fresh : Parse Nat := do
  let r ← get
  set { r with next := r.next + 1 }
  return r.next

/-- The anchor and the tag before a node, in either order. -/
structure Properties where
  anchor : Option String
  tag : Option String
  line : Nat

/-- The full name of a tag, whose token is on the line `line`, for a node that starts on the line
`context`. -/
def tagName (handle suffix : String) (context line : Nat) : Parse String := do
  if handle.isEmpty then return suffix
  match (← get).handles.lookup handle with
  | some expansion => return expansion ++ suffix
  | none => throw ⟨.unknownHandle, context, line⟩

/-- The properties that are next. -/
def readProperties : Parse Properties := do
  let t ← peek
  match t.symbol with
  | .anchor name =>
    let u ← passPeek
    match u.symbol with
    | .tag handle suffix =>
      discard passPeek
      return ⟨some name, some (← tagName handle suffix t.line u.line), t.line⟩
    | _ => return ⟨some name, none, t.line⟩
  | .tag handle suffix =>
    let u ← passPeek
    let anchor ← match u.symbol with
      | .anchor name => do
        discard passPeek
        pure (some name)
      | _ => pure none
    return ⟨anchor, some (← tagName handle suffix t.line t.line), t.line⟩
  | _ => return ⟨none, none, t.line⟩

namespace Properties

/-- The tag of a node that has the tag `default` if none is written. A lone exclamation mark counts
as none. -/
def tagOr (p : Properties) (default : Tag) : Tag :=
  match p.tag with
  | some name => if name = "!" then default else .ofName name
  | none => default

end Properties

/-- The scalar with the given properties. -/
def scalarNode (p : Properties) (isPlain : Bool) (text : String) : Node :=
  let implied : Tag :=
    if !isPlain then .text else if text = "<<" then .merge else (Meaning.ofText true text).tag
  .scalar (p.line + 1) (p.tagOr implied) text

/-- A node that is not written. -/
def emptyNode (line : Nat) : Node :=
  scalarNode ⟨none, none, line⟩ true ""

/-- The node that a reference stands for. -/
def referenceNode (line : Nat) (name : String) : Parse Node := do
  match (← get).anchors.lookup name with
  | some target => return .reference (line + 1) name (← fresh) target
  | none => throw ⟨.unknownAnchor name, 0, 0⟩

/-- Makes an anchor known and then the node that has it. -/
def withAnchor (anchor : Option String) (make : Parse Node) : Parse Node := do
  match anchor with
  | none => make
  | some name =>
    let number ← fresh
    modify fun r => { r with anchors := (name, number) :: r.anchors }
    let node ← make
    modify fun r => { r with anchored := (number, node) :: r.anchored }
    return node

mutual

/-- The node that is next. Block collections may only start if `block`, and a sequence in the column
of the mapping around it only if `level`. -/
def readNode (fuel : Nat) (block level : Bool) : Parse Node :=
  match fuel with
  | 0 => throw ⟨.missingNode, 0, 0⟩
  | fuel + 1 => do
    let t ← peek
    if let .reference name := t.symbol then
      pass
      referenceNode t.line name
    else
      let p ← readProperties
      let t ← peek
      match t.symbol, block, level with
      | .item, _, true =>
        withAnchor p.anchor do
          return .sequence (p.line + 1) (p.tagOr .sequence) (← readLevelItems fuel)
      | .scalar isPlain text, _, _ =>
        withAnchor p.anchor do
          pass
          return scalarNode p isPlain text
      | .flowSequenceStart, _, _ =>
        withAnchor p.anchor do
          pass
          return .sequence (p.line + 1) (p.tagOr .sequence) (← readFlowItems fuel t.line true)
      | .flowMappingStart, _, _ =>
        withAnchor p.anchor do
          pass
          return .mapping (p.line + 1) (p.tagOr .mapping) (← readFlowEntries fuel t.line true)
      | .blockSequenceStart, true, _ =>
        withAnchor p.anchor do
          pass
          return .sequence (p.line + 1) (p.tagOr .sequence) (← readItems fuel t.line)
      | .blockMappingStart, true, _ =>
        withAnchor p.anchor do
          pass
          return .mapping (p.line + 1) (p.tagOr .mapping) (← readEntries fuel t.line)
      | _, _, _ =>
        if p.anchor.isSome || p.tag.isSome then
          withAnchor p.anchor (return scalarNode p true "")
        else stop t .missingNode p.line

/-- The items of a block sequence that starts on the line `start`. -/
def readItems (fuel start : Nat) : Parse (List Node) :=
  match fuel with
  | 0 => throw ⟨.missingItem, 0, 0⟩
  | fuel + 1 => do
    let t ← peek
    match t.symbol with
    | .item =>
      let next ← passPeek
      let item ← if next.symbol.endsItem then pure (emptyNode t.line) else readNode fuel true false
      return item :: (← readItems fuel start)
    | .blockEnd =>
      pass
      return []
    | _ => stop t .missingItem start

/-- The items of a block sequence in the column of the mapping around it. -/
def readLevelItems (fuel : Nat) : Parse (List Node) :=
  match fuel with
  | 0 => throw ⟨.missingItem, 0, 0⟩
  | fuel + 1 => do
    let t ← peek
    if t.symbol = .item then
      let next ← passPeek
      let isEmpty := next.symbol.endsItem || next.symbol.endsEntry
      let item ← if isEmpty then pure (emptyNode t.line) else readNode fuel true false
      return item :: (← readLevelItems fuel)
    else return []

/-- The entries of a block mapping that starts on the line `start`. -/
def readEntries (fuel start : Nat) : Parse (List (Node × Node)) :=
  match fuel with
  | 0 => throw ⟨.missingKey, 0, 0⟩
  | fuel + 1 => do
    let t ← peek
    match t.symbol with
    | .key =>
      let next ← passPeek
      let key ← if next.symbol.endsEntry then pure (emptyNode t.line) else readNode fuel true true
      let value ← readEntryValue fuel
      return (key, value) :: (← readEntries fuel start)
    | .blockEnd =>
      pass
      return []
    | _ => stop t .missingKey start

/-- The value of an entry of a block mapping. -/
def readEntryValue (fuel : Nat) : Parse Node :=
  match fuel with
  | 0 => throw ⟨.missingKey, 0, 0⟩
  | fuel + 1 => do
    let t ← peek
    if t.symbol = .value then
      let next ← passPeek
      if next.symbol.endsEntry then return emptyNode t.line else readNode fuel true true
    else return emptyNode t.line

/-- The items of a flow sequence that starts on the line `start`. -/
def readFlowItems (fuel start : Nat) (first : Bool) : Parse (List Node) :=
  match fuel with
  | 0 => throw ⟨.missingCommaOrBracket, 0, 0⟩
  | fuel + 1 => do
    let t ← peek
    let t ←
      if first || t.symbol = .flowSequenceEnd then pure t
      else if t.symbol = .comma then passPeek
      else stop t .missingCommaOrBracket start
    if t.symbol = .flowSequenceEnd then
      pass
      return []
    else
      let item ← if t.symbol = .key then readPair fuel t.line else readNode fuel false false
      return item :: (← readFlowItems fuel start false)

/-- A mapping with one entry as an item of a flow sequence, from its key on. -/
def readPair (fuel line : Nat) : Parse Node :=
  match fuel with
  | 0 => throw ⟨.missingCommaOrBracket, 0, 0⟩
  | fuel + 1 => do
    let t ← passPeek
    let key ←
      if t.symbol = .value || t.symbol = .comma || t.symbol = .flowSequenceEnd then do
        pass
        pure (emptyNode t.line)
      else readNode fuel false false
    let value ← readFlowValue fuel .flowSequenceEnd
    discard peek
    return .mapping (line + 1) .mapping [(key, value)]

/-- The value of an entry in flow style, which may be empty before `closing`. -/
def readFlowValue (fuel : Nat) (closing : Symbol) : Parse Node :=
  match fuel with
  | 0 => throw ⟨.missingNode, 0, 0⟩
  | fuel + 1 => do
    let t ← peek
    if t.symbol = .value then
      let next ← passPeek
      if next.symbol = .comma || next.symbol = closing then return emptyNode next.line
      else readNode fuel false false
    else return emptyNode t.line

/-- The entries of a flow mapping that starts on the line `start`. -/
def readFlowEntries (fuel start : Nat) (first : Bool) : Parse (List (Node × Node)) :=
  match fuel with
  | 0 => throw ⟨.missingCommaOrBrace, 0, 0⟩
  | fuel + 1 => do
    let t ← peek
    let t ←
      if first || t.symbol = .flowMappingEnd then pure t
      else if t.symbol = .comma then passPeek
      else stop t .missingCommaOrBrace start
    if t.symbol = .flowMappingEnd then
      pass
      return []
    else
      let entry ←
        if t.symbol = .key then do
          let next ← passPeek
          let isEmpty := [Symbol.value, .comma, .flowMappingEnd].contains next.symbol
          let key ← if isEmpty then pure (emptyNode next.line) else readNode fuel false false
          pure (key, ← readFlowValue fuel .flowMappingEnd)
        else do
          let key ← readNode fuel false false
          pure (key, emptyNode (← peek).line)
      return entry :: (← readFlowEntries fuel start false)

end

/-- Makes a handle known, which must be new. -/
def addHandle (t : Token) (name expansion : String) : Parse Unit := do
  if ((← get).handles.lookup name).isSome then stop t .repeatedHandle 0
  else modify fun r => { r with handles := r.handles ++ [(name, expansion)] }

/-- Reads the directives of a document. `versioned` says that one with a version has been read. -/
def readDirectives : Nat → Bool → Parse Unit
  | 0, _ => return ()
  | bound + 1, versioned => do
    let t ← peek
    match t.symbol with
    | .version major minor =>
      if versioned then stop t .repeatedVersion 0
      if major ≠ 1 || minor ≠ 1 then stop t .otherVersion 0
      pass
      readDirectives bound true
    | .handle name expansion =>
      addHandle t name expansion
      pass
      readDirectives bound versioned
    | _ => return ()

/-- Adds the handles that every document has, where no others of the same name are known. -/
def addCommonHandles : Parse Unit :=
  modify fun r => { r with handles := r.handles ++ commonHandles }

/-- Passes marks of a document end. -/
def passEndMarks : Nat → Parse Unit
  | 0 => return ()
  | bound + 1 => do
    if (← peek).symbol = .documentEnd then
      pass
      passEndMarks bound

/-- Fuel that suffices for what is left of a text. -/
def fuel (r : Reader) : Nat :=
  16 * (r.lexer.cursor.rest.length + r.lexer.queue.length) + 64

/-- The content of a document. One that is not the first needs a start mark, and so has one with
directives. -/
def readContent (isFirst : Bool) : Parse Node := do
  let bound := (← get).fuel
  let t ← peek
  if isFirst && !t.symbol.endsContent then
    addCommonHandles
    readNode bound true false
  else if isFirst && t.symbol = .documentEnd then
    addCommonHandles
    stop t .missingNode t.line
  else
    readDirectives bound false
    addCommonHandles
    let t ← peek
    if t.symbol ≠ .documentStart then stop t .missingDocumentStart 0
    let t ← passPeek
    if t.symbol.endsContent then return emptyNode t.line else readNode bound true false

/-- The next document, if there is one. -/
def readDocument : Parse (Option Node) := do
  let r ← get
  if !r.isFirst then passEndMarks r.fuel
  if (← peek).symbol = .streamEnd then return none
  let node ← readContent r.isFirst
  if (← peek).symbol = .documentEnd then pass
  modify fun r => { r with handles := [], isFirst := false }
  return some node

end Reader

end Numerals.Document
