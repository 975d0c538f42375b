import Numerals.Document.Property
import Numerals.Document.Words

/-!
# Tokens of a text

A `Lexer` takes tokens from a text and holds them in a queue. It knows the columns of the block
collections it is in, and for every level of brackets and braces where a key of a mapping may have
started. Only a colon shows that there was a key; then the token for the key, and if a mapping
starts with it also the token for that, are put into the queue before what was read of it. The colon
must come on the same line and within `maxKeyLength` characters.

At least `lookahead` tokens are in the queue before one is taken, and all tokens that may belong to
a key at its front.
-/

namespace Numerals.Document

/-- A place where a key may have started: the number of the token there, and whether a key is needed
there because nothing else can stand in its column. -/
structure KeyStart where
  number : Nat
  isRequired : Bool
  mark : Mark
deriving DecidableEq, Repr, Inhabited

/-- The greatest distance of a colon from the start of its key. -/
def maxKeyLength : Nat := 1024

/-- The number of tokens that are read ahead. -/
def lookahead : Nat := 3

/-- The state of reading tokens. `taken` counts the tokens that have left the queue. `indent` is the
column of the innermost block collection, or negative, and `outerIndents` are those around it.
`keyStart` is for the innermost brackets or braces and `outerKeyStarts` for those around them. -/
structure Lexer where
  cursor : Cursor
  queue : List Token
  taken : Nat
  indent : Int
  outerIndents : List Int
  keyStart : Option KeyStart
  outerKeyStarts : List (Option KeyStart)
  isKeyAllowed : Bool
deriving Repr, Inhabited

namespace KeyStart

/-- Whether a colon at `m` is too far away for the key. -/
def isStale (k : KeyStart) (m : Mark) : Bool :=
  k.mark.line < m.line || k.mark.index + maxKeyLength < m.index

end KeyStart

/-- The cursor after a comment, which is next, and after the comments on the lines below. Between
comments there may be tabs, but not too many blanks. -/
def passComments : Nat → Cursor → Cursor
  | 0, c => c
  | bound + 1, c =>
    let c := c.toLineEnd
    let between := c.rest.takeWhile fun x => isBlank x || x = '\n'
    if between.length < blockSize && c.rest[between.length]? = some '#' then
      passComments bound (c.advance between.length)
    else c

/-- The cursor after a comment on the same line, if there is one. -/
def passLineComment (c : Cursor) : Cursor :=
  let blanks := c.rest.takeWhile isBlank
  if !c.isFresh && blanks.length < blockSize && c.rest[blanks.length]? = some '#' then c.toLineEnd
  else c

namespace Lexer

/-- The lexer at the start of a text. -/
def start (s : String) : Lexer :=
  ⟨.start s, [], 0, -1, [], none, [], true⟩

/-- Whether the lexer is inside brackets or braces. -/
def isInFlow (lx : Lexer) : Bool :=
  !lx.outerKeyStarts.isEmpty

/-- The lexer with a token added at the end of its queue. -/
def push (lx : Lexer) (symbol : Symbol) (line : Nat) : Lexer :=
  { lx with queue := lx.queue ++ [⟨symbol, line⟩] }

/-- The lexer with a token put into its queue before the token with the given number. -/
def insert (lx : Lexer) (number : Nat) (symbol : Symbol) (line : Nat) : Lexer :=
  let place := number - lx.taken
  { lx with queue := lx.queue.take place ++ ⟨symbol, line⟩ :: lx.queue.drop place }

/-- The lexer with a token for the next `n` characters. -/
def pushNext (lx : Lexer) (symbol : Symbol) (n : Nat) : Lexer :=
  { lx.push symbol lx.cursor.line with cursor := lx.cursor.advance n }

/-- Gives up the place where a key may have started. -/
def dropKeyStart (lx : Lexer) : Read Lexer :=
  match lx.keyStart with
  | some k =>
    if k.isRequired then .error (lx.cursor.problem .missingColon k.mark)
    else .ok { lx with keyStart := none }
  | none => .ok lx

/-- Notes that a key may start here, where one is allowed. -/
def saveKeyStart (lx : Lexer) : Read Lexer := do
  if !lx.isKeyAllowed then return lx
  let lx ← lx.dropKeyStart
  let isRequired := !lx.isInFlow && lx.indent = lx.cursor.column
  return { lx with keyStart := some ⟨lx.taken + lx.queue.length, isRequired, lx.cursor.mark⟩ }

/-- Starts a block collection in the column `column` if the lexer is not in one there. Its token is
put before the token with the given number, or at the end of the queue. -/
def roll (lx : Lexer) (column : Nat) (number : Option Nat) (symbol : Symbol) (line : Nat) :
    Read Lexer :=
  if lx.isInFlow || (column : Int) ≤ lx.indent then .ok lx
  else if maxDepth ≤ lx.outerIndents.length then
    .error ⟨.tooDeep, (lx.keyStart.map (·.mark.line)).getD 0, lx.cursor.line⟩
  else
    let lx := { lx with indent := column, outerIndents := lx.indent :: lx.outerIndents }
    match number with
    | some n => .ok (lx.insert n symbol line)
    | none => .ok (lx.push symbol line)

/-- The indentations that are left when those beyond the column `column` end, and how many end. -/
def unrolled (column : Int) : Int → List Int → Int × List Int × Nat
  | indent, outer =>
    if indent ≤ column then (indent, outer, 0)
    else
      match outer with
      | [] => (indent, [], 0)
      | next :: outer =>
        let r := unrolled column next outer
        (r.1, r.2.1, r.2.2 + 1)

/-- Ends the block collections in columns beyond `column`. -/
def unroll (lx : Lexer) (column : Int) (line : Nat) : Lexer :=
  if lx.isInFlow then lx
  else
    let (indent, outer, n) := unrolled column lx.indent lx.outerIndents
    { lx with
      indent := indent
      outerIndents := outer
      queue := lx.queue ++ List.replicate n ⟨.blockEnd, line⟩ }

/-- Passes white space and comments. A tab may stand where no key can start. -/
def toTokenFrom : Nat → Lexer → Read Lexer
  | 0, lx => .ok lx
  | bound + 1, lx => do
    let c := lx.cursor
    c.demand 1
    let c := if c.column = 0 && c.isAt orderMark then c.pass else c
    let c := c.skip fun x => x = ' ' || (x = '\t' && (lx.isInFlow || !lx.isKeyAllowed))
    let c := if c.isAt '#' then passComments (c.rest.length + 1) c else c
    c.demand 1
    if c.rest.head?.any isBreak then
      toTokenFrom bound
        { lx with cursor := c.passBreak, isKeyAllowed := lx.isKeyAllowed || !lx.isInFlow }
    else return { lx with cursor := c }

/-- The lexer at the next token. -/
def toToken (lx : Lexer) : Read Lexer :=
  toTokenFrom (lx.cursor.rest.length + 1) lx

/-- Leaves all block collections before a token between documents. -/
def leaveContent (lx : Lexer) : Read Lexer := do
  let lx ← (lx.unroll (-1) lx.cursor.line).dropKeyStart
  return { lx with isKeyAllowed := false }

/-- Takes the end of the text. -/
def readEnd (lx : Lexer) : Read Lexer := do
  let m := lx.cursor.mark
  let m := if m.column = 0 then m else ⟨m.index, m.line + 1, 0⟩
  let lx ← { lx with cursor := { lx.cursor with mark := m } }.leaveContent
  return lx.push .streamEnd m.line

/-- Takes a directive. -/
def takeDirective (lx : Lexer) : Read Lexer := do
  let lx ← lx.leaveContent
  let (symbol, after) ← readDirective lx.cursor
  return { lx.push symbol lx.cursor.line with cursor := after }

/-- Takes the mark of a document start or end. -/
def takeMark (lx : Lexer) (symbol : Symbol) : Read Lexer := do
  return (← lx.leaveContent).pushNext symbol 3

/-- Takes an opening bracket or brace. -/
def takeOpening (lx : Lexer) (symbol : Symbol) : Read Lexer := do
  let lx ← lx.saveKeyStart
  if maxDepth ≤ lx.outerKeyStarts.length then
    .error (lx.cursor.problem .tooDeep lx.cursor.mark)
  let lx := { lx with keyStart := none, outerKeyStarts := lx.keyStart :: lx.outerKeyStarts }
  return { lx with isKeyAllowed := true }.pushNext symbol 1

/-- Takes a closing bracket or brace. -/
def takeClosing (lx : Lexer) (symbol : Symbol) : Read Lexer := do
  let lx ← lx.dropKeyStart
  let lx := match lx.outerKeyStarts with
    | k :: ks => { lx with keyStart := k, outerKeyStarts := ks }
    | [] => lx
  return { lx with isKeyAllowed := false }.pushNext symbol 1

/-- Takes a comma. -/
def takeComma (lx : Lexer) : Read Lexer := do
  let lx ← lx.dropKeyStart
  return { lx with isKeyAllowed := true }.pushNext .comma 1

/-- Takes the indicator of an item of a block sequence. -/
def takeItem (lx : Lexer) : Read Lexer := do
  if !lx.isInFlow && !lx.isKeyAllowed then
    .error (lx.cursor.problem .misplacedItem lx.cursor.mark)
  let lx ← lx.roll lx.cursor.column none .blockSequenceStart lx.cursor.line
  let lx ← lx.dropKeyStart
  return { lx with isKeyAllowed := true }.pushNext .item 1

/-- Takes the indicator of a key. -/
def takeKey (lx : Lexer) : Read Lexer := do
  if !lx.isInFlow && !lx.isKeyAllowed then
    .error (lx.cursor.problem .misplacedKey lx.cursor.mark)
  let lx ← lx.roll lx.cursor.column none .blockMappingStart lx.cursor.line
  let lx ← lx.dropKeyStart
  return { lx with isKeyAllowed := !lx.isInFlow }.pushNext .key 1

/-- Takes the indicator of a value. If a key may have started on the same line, it did. -/
def takeValue (lx : Lexer) : Read Lexer := do
  let lx ← match lx.keyStart with
    | some k => if k.isStale lx.cursor.mark then lx.dropKeyStart else pure lx
    | none => pure lx
  match lx.keyStart with
  | some k =>
    let lx := lx.insert k.number .key k.mark.line
    let lx ← lx.roll k.mark.column (some k.number) .blockMappingStart k.mark.line
    return { lx with keyStart := none, isKeyAllowed := false }.pushNext .value 1
  | none =>
    if !lx.isInFlow && !lx.isKeyAllowed then
      .error (lx.cursor.problem .misplacedValue lx.cursor.mark)
    let lx ← lx.roll lx.cursor.column none .blockMappingStart lx.cursor.line
    return { lx with isKeyAllowed := !lx.isInFlow }.pushNext .value 1

/-- Takes a token that may start a key, as read from the cursor. -/
def takeContent (lx : Lexer) (read : Cursor → Read (Symbol × Cursor)) : Read Lexer := do
  let lx ← lx.saveKeyStart
  let (symbol, after) ← read lx.cursor
  return { lx.push symbol lx.cursor.line with cursor := after, isKeyAllowed := false }

/-- Takes a plain scalar. A key may start on a line after it. -/
def takePlain (lx : Lexer) : Read Lexer := do
  let lx ← lx.saveKeyStart
  let (text, after, isBroken) ← readPlain lx.isInFlow (lx.indent + 1).toNat lx.cursor
  return { lx.push (.scalar true (String.ofList text)) lx.cursor.line with
    cursor := after, isKeyAllowed := isBroken }

/-- Takes a block scalar. -/
def takeBlock (lx : Lexer) (literal : Bool) : Read Lexer := do
  let lx ← lx.dropKeyStart
  let outer := if lx.indent < 0 then none else some lx.indent.toNat
  let (text, after) ← readBlock literal outer lx.cursor
  return { lx.push (.scalar false (String.ofList text)) lx.cursor.line with
    cursor := after, isKeyAllowed := true }

/-- A token for the quoted scalar that is next. -/
def quotedSymbol (quote : Char) (c : Cursor) : Read (Symbol × Cursor) := do
  let (text, after) ← readQuoted quote c
  return (.scalar false (String.ofList text), after)

/-- A token for the name that is next. -/
def nameSymbol (symbol : String → Symbol) (c : Cursor) : Read (Symbol × Cursor) := do
  let (name, after) ← readName c
  return (symbol name, after)

/-- Whether a plain scalar may start with `c`, which is followed by `next`. -/
def startsPlain (flow : Bool) (c : Char) (next : List Char) : Bool :=
  if c = '-' then !next.head?.any isBlank
  else if c = '?' || c = ':' then !flow && !atSpacing next
  else
    !(isSpacing c || c = Text.doubleQuote || c = Text.singleQuote || c.toNat = 0x60 ||
      [',', '[', ']', '\x7b', '\x7d', '#', '&', '*', '!', '|', '>', '%', '@'].contains c)

/-- Takes the token within a document that starts with `x`, which is followed by `next`. -/
def takeInner (lx : Lexer) (x : Char) (next : List Char) : Read Lexer :=
  if x = '[' then lx.takeOpening .flowSequenceStart
  else if x = '\x7b' then lx.takeOpening .flowMappingStart
  else if x = ']' then lx.takeClosing .flowSequenceEnd
  else if x = '\x7d' then lx.takeClosing .flowMappingEnd
  else if x = ',' then lx.takeComma
  else if x = '-' && atSpacing next then lx.takeItem
  else if x = '?' && (lx.isInFlow || atSpacing next) then lx.takeKey
  else if x = ':' && (lx.isInFlow || atSpacing next) then lx.takeValue
  else if x = '*' then lx.takeContent (nameSymbol .reference)
  else if x = '&' then lx.takeContent (nameSymbol .anchor)
  else if x = '!' then lx.takeContent readTag
  else if x = '|' && !lx.isInFlow then lx.takeBlock true
  else if x = '>' && !lx.isInFlow then lx.takeBlock false
  else if x = Text.singleQuote || x = Text.doubleQuote then lx.takeContent (quotedSymbol x)
  else if startsPlain lx.isInFlow x next then lx.takePlain
  else .error (lx.cursor.problem .strayCharacter lx.cursor.mark)

/-- Takes a token and the comment behind it. The comment behind the indicator of an item is left. -/
def takeToken (lx : Lexer) (x : Char) (next : List Char) : Read Lexer := do
  let lx ← lx.takeInner x next
  match lx.queue.getLast? with
  | some ⟨.item, _⟩ => return lx
  | _ => return { lx with cursor := passLineComment lx.cursor }

/-- Puts the next token into the queue. -/
def fetch (lx : Lexer) : Read Lexer := do
  let line := lx.cursor.line
  let lx ← lx.toToken
  let lx := lx.unroll lx.cursor.column line
  lx.cursor.demand 4
  match lx.cursor.rest with
  | [] => lx.readEnd
  | x :: next =>
    if lx.cursor.column = 0 && x = '%' then lx.takeDirective
    else if lx.cursor.column = 0 && atMark '-' (x :: next) then lx.takeMark .documentStart
    else if lx.cursor.column = 0 && atMark '.' (x :: next) then lx.takeMark .documentEnd
    else lx.takeToken x next

/-- The place where a key may have started with the first token of the queue. -/
def frontKey? (lx : Lexer) : Option KeyStart :=
  ((lx.keyStart :: lx.outerKeyStarts).filterMap id).find? fun k => k.number = lx.taken

/-- Gives up the place where a key may have started with the first token of the queue. -/
def dropFrontKey (lx : Lexer) : Lexer :=
  let clear (k : Option KeyStart) := k.filter fun k => k.number ≠ lx.taken
  { lx with keyStart := clear lx.keyStart, outerKeyStarts := lx.outerKeyStarts.map clear }

/-- Fetches tokens until the first one is certain. -/
def fillFrom : Nat → Lexer → Read Lexer
  | 0, lx => .ok lx
  | bound + 1, lx => do
    if lx.queue.length < lookahead then fillFrom bound (← lx.fetch)
    else
      match lx.frontKey? with
      | none => return lx
      | some k =>
        if !k.isStale lx.cursor.mark then fillFrom bound (← lx.fetch)
        else if k.isRequired then .error (lx.cursor.problem .missingColon k.mark)
        else return lx.dropFrontKey

/-- The lexer with a first token that is certain. -/
def fill (lx : Lexer) : Read Lexer :=
  fillFrom (lx.cursor.rest.length + lookahead + 1) lx

/-- The first token of the queue. -/
def front (lx : Lexer) : Token :=
  lx.queue.head?.getD ⟨.streamEnd, lx.cursor.line⟩

/-- The lexer without the first token of its queue. -/
def drop (lx : Lexer) : Lexer :=
  { lx with queue := lx.queue.tail, taken := lx.taken + 1 }

end Lexer

end Numerals.Document
