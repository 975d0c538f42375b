import Numerals.Text.Numeral

/-!
# Problems of documents

A document that is not well-formed has one `Problem`, with the line of the construct it interrupts
and the line where it shows up. The report names the first of these two lines that is not the first
line of the text, and none if both are. Lines are counted from zero here; a report counts them from
one if the problem is lexical.
-/

namespace Numerals.Document

/-- What can be wrong with a document. -/
inductive Defect where
  | strayCharacter
  | controlCharacter
  | unclosedQuote
  | markInQuote
  | unknownEscape
  | shortEscape
  | escapedSurrogate
  | tabIndentation
  | tabInBlock
  | zeroIndentation
  | missingColon
  | misplacedKey
  | misplacedValue
  | misplacedItem
  | missingLineEnd
  | missingDirective
  | oddDirective
  | unknownDirective
  | missingVersion
  | missingPoint
  | longVersion
  | missingName
  | missingBang
  | missingUri
  | missingUriEnd
  | missingBlank
  | missingBlankOrLineEnd
  | oddUriEscape
  | oddLeadingByte
  | oddTrailingByte
  | tooDeep
  | repeatedVersion
  | otherVersion
  | repeatedHandle
  | unknownHandle
  | unknownAnchor (name : String)
  | missingNode
  | missingKey
  | missingItem
  | missingCommaOrBracket
  | missingCommaOrBrace
  | missingDocumentStart
deriving DecidableEq, Repr, Inhabited

/-- How deeply nodes may be nested. -/
def maxDepth : Nat := 10000

namespace Defect

/-- What a report says. -/
def message : Defect → String
  | strayCharacter => "found character that cannot start any token"
  | controlCharacter => "control characters are not allowed"
  | unclosedQuote => "found unexpected end of stream"
  | markInQuote => "found unexpected document indicator"
  | unknownEscape => "found unknown escape character"
  | shortEscape => "did not find expected hexdecimal number"
  | escapedSurrogate => "found invalid Unicode character escape code"
  | tabIndentation => "found a tab character that violates indentation"
  | tabInBlock => "found a tab character where an indentation space is expected"
  | zeroIndentation => "found an indentation indicator equal to 0"
  | missingColon => "could not find expected ':'"
  | misplacedKey => "mapping keys are not allowed in this context"
  | misplacedValue => "mapping values are not allowed in this context"
  | misplacedItem => "block sequence entries are not allowed in this context"
  | missingLineEnd => "did not find expected comment or line break"
  | missingDirective => "could not find expected directive name"
  | oddDirective => "found unexpected non-alphabetical character"
  | unknownDirective => "found unknown directive name"
  | missingVersion => "did not find expected version number"
  | missingPoint => "did not find expected digit or '.' character"
  | longVersion => "found extremely long version number"
  | missingName => "did not find expected alphabetic or numeric character"
  | missingBang => "did not find expected '!'"
  | missingUri => "did not find expected tag URI"
  | missingUriEnd => "did not find the expected '>'"
  | missingBlank => "did not find expected whitespace"
  | missingBlankOrLineEnd => "did not find expected whitespace or line break"
  | oddUriEscape => "did not find URI escaped octet"
  | oddLeadingByte => "found an incorrect leading UTF-8 octet"
  | oddTrailingByte => "found an incorrect trailing UTF-8 octet"
  | tooDeep => "exceeded max depth of " ++ Text.decimal maxDepth
  | repeatedVersion => "found duplicate %YAML directive"
  | otherVersion => "found incompatible YAML document"
  | repeatedHandle => "found duplicate %TAG directive"
  | unknownHandle => "found undefined tag handle"
  | unknownAnchor name => "unknown anchor '" ++ name ++ "' referenced"
  | missingNode => "did not find expected node content"
  | missingKey => "did not find expected key"
  | missingItem => "did not find expected '-' indicator"
  | missingCommaOrBracket => "did not find expected ',' or ']'"
  | missingCommaOrBrace => "did not find expected ',' or '\x7d'"
  | missingDocumentStart => "did not find expected <document start>"

/-- Whether a defect concerns the structure of a document rather than its characters. -/
def isStructural : Defect → Bool
  | repeatedVersion | otherVersion | repeatedHandle | unknownHandle | unknownAnchor _ => true
  | missingNode | missingKey | missingItem | missingCommaOrBracket | missingCommaOrBrace => true
  | missingDocumentStart => true
  | _ => false

end Defect

/-- A defect with the line of the construct around it and its own line. -/
structure Problem where
  defect : Defect
  context : Nat
  line : Nat
deriving DecidableEq, Repr, Inhabited

/-- A computation that may find a problem. -/
abbrev Read (α : Type) := Except Problem α

namespace Problem

/-- The line that a report names. -/
def reportedLine? (p : Problem) : Option Nat :=
  let n := if p.context = 0 then p.line else p.context
  if n = 0 then none else some (if p.defect.isStructural then n else n + 1)

/-- The report of a problem. -/
def text (p : Problem) : String :=
  match p.reportedLine? with
  | some n => "line " ++ Text.decimal n ++ ": " ++ p.defect.message
  | none => p.defect.message

end Problem

end Numerals.Document
