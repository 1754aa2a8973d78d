/-!
# Signs

What a document is made of, once its characters have been read: scalars with their properties, the
indicators between them, and the starts and ends of collections. A collection in block form starts
and ends by indentation, one in flow form by brackets.
-/

namespace Jack.Document

/-- How a scalar is written. -/
inductive Style where
  | plain
  | singleQuoted
  | doubleQuoted
  | literal
  | folded
  deriving DecidableEq, Repr

/-- A sign of a document. -/
inductive Sign where
  /-- The version of the format that a document asks for. -/
  | version (major minor : Nat)
  /-- What a tag handle stands for. -/
  | handle (name meaning : String)
  | documentStart
  | documentEnd
  | blockSequenceStart
  | blockMappingStart
  | blockEnd
  | flowSequenceStart
  | flowSequenceEnd
  | flowMappingStart
  | flowMappingEnd
  | blockEntry
  | flowEntry
  | key
  | value
  /-- The node with the anchor again. -/
  | reference (name : String)
  | anchor (name : String)
  | tag (handle suffix : String)
  | scalar (style : Style) (text : String)
  deriving DecidableEq, Repr

end Jack.Document
