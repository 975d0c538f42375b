/-!
# Tokens

A text of documents is a sequence of tokens. Besides what is written, there are tokens where a
sequence or a mapping in block style starts and ends, which only columns show, and where a key of a
mapping starts, which only the colon after it shows.
-/

namespace Numerals.Document

/-- What a token is. -/
inductive Symbol where
  | streamEnd
  | version (major minor : Nat)
  | handle (name expansion : String)
  | documentStart
  | documentEnd
  | blockSequenceStart
  | blockMappingStart
  | blockEnd
  | flowSequenceStart
  | flowSequenceEnd
  | flowMappingStart
  | flowMappingEnd
  | item
  | comma
  | key
  | value
  | reference (name : String)
  | anchor (name : String)
  | tag (handle suffix : String)
  | scalar (isPlain : Bool) (text : String)
deriving DecidableEq, Repr, Inhabited

/-- A token and the line it starts on, counted from zero. -/
structure Token where
  symbol : Symbol
  line : Nat
deriving DecidableEq, Repr, Inhabited

namespace Symbol

/-- Whether a token belongs between documents. -/
def endsContent : Symbol → Bool
  | version .. | handle .. | documentStart | documentEnd | streamEnd => true
  | _ => false

/-- Whether a token leaves a key or a value of a block mapping empty. -/
def endsEntry : Symbol → Bool
  | key | value | blockEnd => true
  | _ => false

/-- Whether a token leaves an item of a block sequence empty. -/
def endsItem : Symbol → Bool
  | item | blockEnd => true
  | _ => false

end Symbol

end Numerals.Document
