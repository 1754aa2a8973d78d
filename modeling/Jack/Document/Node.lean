import Jack.Document.Scan

/-!
# From signs to nodes

A document is a node: a scalar, a sequence, a mapping, or a reference to a node with an anchor. An
entry whose key or value is left out has an empty plain scalar there.
-/

namespace Jack.Document

/-- A node of a document. -/
inductive Node where
  | scalar (style : Style) (tag : Option String) (text : String)
  | sequence (nodes : List Node)
  | mapping (entries : List (Node × Node))
  /-- The node with this number among those that have anchors. -/
  | reference (number : Nat)
  deriving Repr

/-- What stands where nothing is written. -/
def Node.empty : Node := .scalar .plain none ""

/-- Where a node stands, which decides on the forms it may have. -/
inductive Position where
  /-- In a sequence in block form, or at the top. -/
  | block
  /-- In a mapping in block form, where a sequence need not be indented. -/
  | entry
  /-- Within brackets. -/
  | flow
  deriving DecidableEq, Repr

/-! ## Reading nodes -/

/-- Signs that have been read in part. -/
structure Reading where
  /-- What is left to read. -/
  signs : List Sign
  /-- What the handles of tags stand for. -/
  handles : List (String × String)
  /-- The anchors so far with the numbers of their nodes, the latest first. -/
  anchors : List (String × Nat) := []
  /-- The nodes with anchors, by their numbers. -/
  anchored : List (Nat × Node) := []

/-- A computation that reads signs. -/
abbrev Read := StateT Reading Option

namespace Read

/-- The next sign. -/
def peek : Read (Option Sign) := do return (← get).signs.head?

/-- Skip the next sign. -/
def advance : Read Unit := modify fun r => { r with signs := r.signs.tail }

/-- Skip the next sign if it is the given one, and tell whether it was. -/
def accept (sign : Sign) : Read Bool := do
  if (← peek) = some sign then advance; return true
  else return false

/-- The tag that a handle and a suffix make. -/
def tag (handle suffix : String) : Read String := do
  if handle = "" then return suffix
  match (← get).handles.lookup handle with
  | some meaning => return meaning ++ suffix
  | none => failure

/-- The tag at this place, if there is one. -/
def tag? : Read (Option String) := do
  match ← peek with
  | some (.tag handle suffix) => advance; return some (← tag handle suffix)
  | _ => return none

/-- The anchor at this place, if there is one. -/
def anchor? : Read (Option String) := do
  match ← peek with
  | some (.anchor name) => advance; return some name
  | _ => return none

/-- The properties of a node, in either order. -/
def properties : Read (Option String × Option String) := do
  match ← anchor? with
  | some name => return (some name, ← tag?)
  | none =>
    match ← tag? with
    | some tag => return (← anchor?, some tag)
    | none => return (none, none)

/-- The number of the node with an anchor. -/
def number (name : String) : Read Nat := do
  match (← get).anchors.lookup name with
  | some number => return number
  | none => failure

/-- Give a node that starts here its number. -/
def declare (name : String) : Read Nat := do
  let number := (← get).anchors.length
  modify fun r => { r with anchors := (name, number) :: r.anchors }
  return number

/-- Keep a node under its number. -/
def keep (number : Nat) (node : Node) : Read Unit :=
  modify fun r => { r with anchored := (number, node) :: r.anchored }

mutual

/-- The node that starts here. -/
def node : Nat → Position → Read Node
  | 0, _ => failure
  | bound + 1, position => do
    match ← peek with
    | some (.reference name) => advance; return .reference (← number name)
    | _ =>
      match ← properties with
      | (none, tag) => content bound position tag tag.isSome
      | (some name, tag) =>
        let number ← declare name
        let node ← content bound position tag true
        keep number node
        return node

/-- The node that starts here, after its properties. It may be left out if it has any. -/
def content : Nat → Position → Option String → Bool → Read Node
  | 0, _, _, _ => failure
  | bound + 1, position, tag, hasProperties => do
    match ← peek, position with
    | some (.scalar style text), _ => advance; return .scalar style tag text
    | some .flowSequenceStart, _ => advance; return .sequence (← flowItems bound true)
    | some .flowMappingStart, _ => advance; return .mapping (← flowEntries bound true)
    | some .blockEntry, .entry => return .sequence (← looseItems bound)
    | some .blockSequenceStart, .block | some .blockSequenceStart, .entry =>
      advance; return .sequence (← blockItems bound)
    | some .blockMappingStart, .block | some .blockMappingStart, .entry =>
      advance; return .mapping (← blockEntries bound)
    | _, _ => if hasProperties then return .scalar .plain tag "" else failure

/-- The node that starts here, or an empty one before the given signs. -/
def nodeUnless : Nat → Position → List Sign → Read Node
  | 0, _, _ => failure
  | bound + 1, position, ends => do
    match ← peek with
    | some sign => if ends.contains sign then return Node.empty else node bound position
    | none => failure

/-- The rest of a sequence in block form. -/
def blockItems : Nat → Read (List Node)
  | 0 => failure
  | bound + 1 => do
    if ← accept .blockEntry then
      let item ← nodeUnless bound .block [.blockEntry, .blockEnd]
      return item :: (← blockItems bound)
    else if ← accept .blockEnd then return []
    else failure

/-- The rest of a sequence that is not indented. It ends with its last entry. -/
def looseItems : Nat → Read (List Node)
  | 0 => failure
  | bound + 1 => do
    if ← accept .blockEntry then
      let item ← nodeUnless bound .block [.blockEntry, .key, .value, .blockEnd]
      return item :: (← looseItems bound)
    else return []

/-- The rest of a mapping in block form. -/
def blockEntries : Nat → Read (List (Node × Node))
  | 0 => failure
  | bound + 1 => do
    if ← accept .key then
      let key ← nodeUnless bound .entry [.key, .value, .blockEnd]
      let value ←
        if ← accept .value then nodeUnless bound .entry [.key, .value, .blockEnd]
        else pure Node.empty
      return (key, value) :: (← blockEntries bound)
    else if ← accept .blockEnd then return []
    else failure

/-- The rest of a sequence in brackets. A comma comes before each item but the first. A key starts a
mapping of one entry. -/
def flowItems : Nat → Bool → Read (List Node)
  | 0, _ => failure
  | bound + 1, isFirst => do
    if ← accept .flowSequenceEnd then return []
    guard (isFirst || (← accept .flowEntry))
    if ← accept .flowSequenceEnd then return []
    let item ←
      if ← accept .key then do pure (.mapping [← flowPair bound]) else node bound .flow
    return item :: (← flowItems bound false)

/-- The entry of a mapping that is an item of a sequence in brackets. A sign that stands where the
key is left out goes with it. -/
def flowPair : Nat → Read (Node × Node)
  | 0 => failure
  | bound + 1 => do
    let isLeftOut := (← peek).any [.value, .flowEntry, .flowSequenceEnd].contains
    let key ← if isLeftOut then do advance; pure Node.empty else node bound .flow
    let value ←
      if ← accept .value then nodeUnless bound .flow [.flowEntry, .flowSequenceEnd]
      else pure Node.empty
    return (key, value)

/-- The rest of a mapping in brackets. A comma comes before each entry but the first. -/
def flowEntries : Nat → Bool → Read (List (Node × Node))
  | 0, _ => failure
  | bound + 1, isFirst => do
    if ← accept .flowMappingEnd then return []
    guard (isFirst || (← accept .flowEntry))
    if ← accept .flowMappingEnd then return []
    if ← accept .key then
      let key ← nodeUnless bound .flow [.value, .flowEntry, .flowMappingEnd]
      let value ←
        if ← accept .value then nodeUnless bound .flow [.flowEntry, .flowMappingEnd]
        else pure Node.empty
      return (key, value) :: (← flowEntries bound false)
    else
      let key ← node bound .flow
      return (key, Node.empty) :: (← flowEntries bound false)

end

end Read

/-! ## Documents -/

/-- The directives in front of a document: what they say of handles, and the signs after them. The
version of the format may be given once, and a handle be given a meaning once. -/
def directives? (versionGiven : Bool) (handles : List (String × String)) :
    List Sign → Option (List (String × String) × List Sign)
  | .version major minor :: signs =>
    if !versionGiven && major = 1 && (minor = 1 || minor = 2) then directives? true handles signs
    else none
  | .handle name meaning :: signs =>
    if (handles.lookup name).isNone then directives? versionGiven ((name, meaning) :: handles) signs
    else none
  | signs => some (handles, signs)

/-- The handles that have a meaning unless a directive gives them another. -/
def defaultHandles : List (String × String) := [("!", "!"), ("!!", "!!")]

/-- Whether a sign belongs to the outside of a document. -/
def isOutside : Sign → Bool
  | .version _ _ | .handle _ _ | .documentStart | .documentEnd => true
  | _ => false

end Jack.Document

namespace Jack

/-- A document: its node, if it has any, and the nodes with anchors by their numbers. -/
structure Document where
  root : Option Document.Node
  anchored : List (Nat × Document.Node) := []

namespace Document

/-- The node at the top that the signs make, and the signs after it. Every step of reading is taken
at a sign, and there are at most four of them at each. -/
def readRoot? (handles : List (String × String)) (signs : List Sign) :
    Option (Document × List Sign) := do
  let (root, reading) ← (Read.node (4 * signs.length + 4) .block).run
    { signs := signs, handles := handles ++ defaultHandles }
  return ({ root := some root, anchored := reading.anchored }, reading.signs)

/-- The document that the signs make, and the signs after it. -/
def read? (signs : List Sign) : Option (Document × List Sign) :=
  match signs with
  | [] => some ({ root := none }, [])
  | .documentEnd :: _ => none
  | sign :: _ =>
    if isOutside sign then do
      match ← directives? false [] signs with
      | (handles, .documentStart :: signs) =>
        if signs.head?.all isOutside then some ({ root := some Node.empty }, signs)
        else readRoot? handles signs
      | _ => none
    else
      readRoot? [] signs

/-- The document in a text. There may be no other one after it. -/
def ofText? (text : String) : Option Document := do
  let (document, signs) ← read? (← signs? text)
  if signs.all (· = .documentEnd) then some document else none

/-- The node itself, or the one that it refers to. -/
def resolve (document : Document) : Node → Node
  | .reference number => (document.anchored.lookup number).getD Node.empty
  | node => node

end Document

end Jack
