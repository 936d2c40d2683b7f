import LayeredConfig.Yaml.Fault
import LayeredConfig.Yaml.Node.Basic
import LayeredConfig.Yaml.Token.Basic

/-!
# From tokens to nodes

The grammar of documents over tokens, by recursive descent. Every function answers what it read with
the tokens behind it, which are never more than before (`Parsed.length_le`); a function that calls
another on the same tokens has a higher rank, and so the descent ends.

A key, value or item may be left out. Then the node is empty.
-/

namespace LayeredConfig.Yaml

/-! ### Names and handles -/

/-- The names that were given to nodes so far, with their numbers. -/
abbrev Names := List (String × Nat)

namespace Names

/-- The number of a name. -/
def find? (names : Names) (name : String) : Option Nat :=
  List.lookup name names

/-- The number of a node that is given a name: how many different names there are before it. A name
that was given before goes over to the new node. -/
def give (names : Names) (name : String) : Nat × Names :=
  let id := names.length
  (id, (name, id) :: names.filter fun p ↦ p.1 ≠ name)

end Names

/-- Handles and what they stand for. -/
abbrev Handles := List (String × Tag)

namespace Handles

/-- The handles that every document has. -/
def standard : Handles :=
  [("!", .ofString "!"), ("!!", .ofString "tag:yaml.org,2002:")]

/-- The tag that a handle and a suffix stand for. -/
def expand (handles : Handles) (handle : String) (suffix : Tag) : Except Fault Tag :=
  if handle.isEmpty then .ok suffix
  else match List.lookup handle handles with
    | some expansion => .ok (expansion ++ suffix)
    | none => .error .badTag

end Handles

/-! ### Nodes -/

/-- What was read from the front of `ts`. -/
structure Parsed (α : Type) (ts : List Token) where
  /-- What was read. -/
  value : α
  /-- The names given so far. -/
  names : Names
  /-- The tokens behind it. -/
  rest : List Token
  /-- No token was added. -/
  length_le : rest.length ≤ ts.length

/-- The same tokens behind something else that was read from fewer tokens. -/
def Parsed.map {α β : Type} {ts us : List Token} (f : α → β) (p : Parsed α us)
    (h : us.length ≤ ts.length := by simp) : Parsed β ts :=
  ⟨f p.value, p.names, p.rest, Nat.le_trans p.length_le h⟩

/-- Where a node stands, which decides what it may be. -/
inductive Place where
  /-- In a flow collection: no block collection may stand there. -/
  | flow
  /-- In a block. -/
  | block
  /-- In a block mapping, where the items of a sequence need no indentation of their own. -/
  | entry
deriving DecidableEq

/-- Reads what stands in front of a node. -/
def readProperties (handles : Handles) (names : Names) (ts : List Token) :
    Except Fault (Parsed Properties ts) :=
  match ts with
  | .anchor name :: .tag handle suffix :: r => do
    let tag ← handles.expand handle suffix
    let (id, names) := names.give name
    .ok ⟨⟨some id, some tag⟩, names, r, by simp; omega⟩
  | .anchor name :: r =>
    let (id, names) := names.give name
    .ok ⟨⟨some id, none⟩, names, r, by simp⟩
  | .tag handle suffix :: .anchor name :: r => do
    let tag ← handles.expand handle suffix
    let (id, names) := names.give name
    .ok ⟨⟨some id, some tag⟩, names, r, by simp; omega⟩
  | .tag handle suffix :: r => do
    let tag ← handles.expand handle suffix
    .ok ⟨⟨none, some tag⟩, names, r, by simp⟩
  | ts => .ok ⟨.none, names, ts, Nat.le_refl _⟩

/-- A scalar. The tag `!` says of it no more than that it is one, and counts for nothing. -/
def scalarNode (props : Properties) (isPlain : Bool) (text : String) : Node :=
  .scalar (if props.tag = some (.ofString "!") then { props with tag := none } else props) isPlain
    text

/-- The token that comes next is one of `stops`. -/
def stopsAt (stops : List Token) (ts : List Token) : Bool :=
  ts.head?.any (· ∈ stops)

/-- A node that is left out may only be absent where something stands in front of it. -/
def absent (props : Properties) (names : Names) (ts : List Token) : Except Fault (Parsed Node ts) :=
  if props.anchor.isSome || props.tag.isSome then .ok ⟨.empty props, names, ts, Nat.le_refl _⟩
  else .error .unexpectedToken

mutual

/-- Reads a node. -/
def readNode (handles : Handles) (place : Place) (names : Names) (ts : List Token) :
    Except Fault (Parsed Node ts) :=
  match ts with
  | .alias name :: r =>
    match names.find? name with
    | some id => .ok ⟨.alias id, names, r, by simp⟩
    | none => .error .unknownAlias
  | ts => do
    let ⟨props, names, r, hr⟩ ← readProperties handles names ts
    let content ← readContent handles place props names r
    .ok (content.map id hr)
termination_by 5 * ts.length + 1

/-- Reads a node from behind what stands in front of it. -/
def readContent (handles : Handles) (place : Place) (props : Properties) (names : Names)
    (ts : List Token) : Except Fault (Parsed Node ts) :=
  match ts with
  | .scalar isPlain text :: r => .ok ⟨scalarNode props isPlain text, names, r, by simp⟩
  | .flowSequenceStart :: r => do
    let items ← readFlowItems handles names r
    .ok (items.map (.sequence props))
  | .flowMappingStart :: r => do
    let entries ← readFlowEntries handles names r
    .ok (entries.map (.mapping props))
  | .blockSequenceStart :: r =>
    if place = .flow then absent props names (.blockSequenceStart :: r)
    else do
      let items ← readBlockItems handles names r
      .ok (items.map (.sequence props))
  | .blockMappingStart :: r =>
    if place = .flow then absent props names (.blockMappingStart :: r)
    else do
      let entries ← readBlockEntries handles names r
      .ok (entries.map (.mapping props))
  | .blockEntry :: r =>
    if place = .entry then do
      let items ← readLooseItems handles names r
      .ok (items.map (.sequence props))
    else absent props names (.blockEntry :: r)
  | ts => absent props names ts
termination_by 5 * ts.length

/-- Reads a node, or nothing in front of one of `stops`. -/
def readNodeUnless (handles : Handles) (stops : List Token) (place : Place) (names : Names)
    (ts : List Token) : Except Fault (Parsed Node ts) :=
  if stopsAt stops ts then .ok ⟨.empty .none, names, ts, Nat.le_refl _⟩
  else readNode handles place names ts
termination_by 5 * ts.length + 2

/-- Reads the items of a block sequence. -/
def readBlockItems (handles : Handles) (names : Names) (ts : List Token) :
    Except Fault (Parsed (List Node) ts) :=
  match ts with
  | .blockEntry :: r => do
    let ⟨item, names, r, hr⟩ ← readNodeUnless handles [.blockEntry, .blockEnd] .block names r
    let items ← readBlockItems handles names r
    .ok (items.map (item :: ·) (by simp; omega))
  | .blockEnd :: r => .ok ⟨[], names, r, by simp⟩
  | _ => .error .unexpectedToken
termination_by 5 * ts.length + 4

/-- Reads the items of a block sequence without indentation of its own, from behind its first
hyphen. -/
def readLooseItems (handles : Handles) (names : Names) (ts : List Token) :
    Except Fault (Parsed (List Node) ts) := do
  let ⟨item, names, r, hr⟩ ←
    readNodeUnless handles [.blockEntry, .key, .value, .blockEnd] .block names ts
  match r, hr with
  | .blockEntry :: r, hr => do
    let items ← readLooseItems handles names r
    .ok (items.map (item :: ·) (by simp at hr; omega))
  | r, hr => .ok ⟨[item], names, r, hr⟩
termination_by 5 * ts.length + 4

/-- Reads the entries of a block mapping. -/
def readBlockEntries (handles : Handles) (names : Names) (ts : List Token) :
    Except Fault (Parsed (List (Node × Node)) ts) :=
  match ts with
  | .key :: r => do
    let ⟨key, names, r, hr⟩ ← readNodeUnless handles [.key, .value, .blockEnd] .entry names r
    let ⟨value, names, r, hr⟩ ← readBlockValue handles names r
    let entries ← readBlockEntries handles names r
    .ok (entries.map ((key, value) :: ·) (by simp; omega))
  | .blockEnd :: r => .ok ⟨[], names, r, by simp⟩
  | _ => .error .unexpectedToken
termination_by 5 * ts.length + 4

/-- Reads the value of an entry in a block mapping, which may lack its colon. -/
def readBlockValue (handles : Handles) (names : Names) (ts : List Token) :
    Except Fault (Parsed Node ts) :=
  match ts with
  | .value :: r => do
    let value ← readNodeUnless handles [.key, .value, .blockEnd] .entry names r
    .ok (value.map id)
  | ts => .ok ⟨.empty .none, names, ts, Nat.le_refl _⟩
termination_by 5 * ts.length + 3

/-- Reads the items of a flow sequence, with commas between them and perhaps behind the last. -/
def readFlowItems (handles : Handles) (names : Names) (ts : List Token) :
    Except Fault (Parsed (List Node) ts) :=
  match ts with
  | .flowSequenceEnd :: r => .ok ⟨[], names, r, by simp⟩
  | ts => do
    let ⟨item, names, r, hr⟩ ← readFlowItem handles names ts
    match r, hr with
    | .flowSequenceEnd :: r, hr => .ok ⟨[item], names, r, by simp at hr; omega⟩
    | .flowEntry :: r, hr => do
      let items ← readFlowItems handles names r
      .ok (items.map (item :: ·) (by simp at hr; omega))
    | _, _ => .error .unexpectedToken
termination_by 5 * ts.length + 4

/-- Reads an item of a flow sequence. An item with the mark of a key is a mapping of one entry; if
the key is left out, the token in its place is passed over. -/
def readFlowItem (handles : Handles) (names : Names) (ts : List Token) :
    Except Fault (Parsed Node ts) :=
  match ts with
  | .key :: t :: r =>
    if t ∈ [.value, .flowEntry, .flowSequenceEnd] then do
      let ⟨value, names, r, hr⟩ ← readFlowValue handles [.flowEntry, .flowSequenceEnd] names r
      .ok ⟨.mapping .none [(.empty .none, value)], names, r, by simp; omega⟩
    else do
      let ⟨key, names, r, hr⟩ ← readNode handles .flow names (t :: r)
      have hr := List.length_cons ▸ hr
      let ⟨value, names, r, hr⟩ ← readFlowValue handles [.flowEntry, .flowSequenceEnd] names r
      .ok ⟨.mapping .none [(key, value)], names, r, by simp at *; omega⟩
  | ts => readNode handles .flow names ts
termination_by 5 * ts.length + 3

/-- Reads the value of an entry in a flow collection, which may lack its colon. -/
def readFlowValue (handles : Handles) (stops : List Token) (names : Names) (ts : List Token) :
    Except Fault (Parsed Node ts) :=
  match ts with
  | .value :: r => do
    let value ← readNodeUnless handles stops .flow names r
    .ok (value.map id)
  | ts => .ok ⟨.empty .none, names, ts, Nat.le_refl _⟩
termination_by 5 * ts.length + 3

/-- Reads the entries of a flow mapping, with commas between them and perhaps behind the last. -/
def readFlowEntries (handles : Handles) (names : Names) (ts : List Token) :
    Except Fault (Parsed (List (Node × Node)) ts) :=
  match ts with
  | .flowMappingEnd :: r => .ok ⟨[], names, r, by simp⟩
  | ts => do
    let ⟨entry, names, r, hr⟩ ← readFlowEntry handles names ts
    match r, hr with
    | .flowMappingEnd :: r, hr => .ok ⟨[entry], names, r, by simp at hr; omega⟩
    | .flowEntry :: r, hr => do
      let entries ← readFlowEntries handles names r
      .ok (entries.map (entry :: ·) (by simp at hr; omega))
    | _, _ => .error .unexpectedToken
termination_by 5 * ts.length + 4

/-- Reads an entry of a flow mapping. Without the mark of a key it has no value. -/
def readFlowEntry (handles : Handles) (names : Names) (ts : List Token) :
    Except Fault (Parsed (Node × Node) ts) :=
  match ts with
  | .key :: r => do
    let ⟨key, names, r, hr⟩ ←
      readNodeUnless handles [.value, .flowEntry, .flowMappingEnd] .flow names r
    let ⟨value, names, r, hr⟩ ← readFlowValue handles [.flowEntry, .flowMappingEnd] names r
    .ok ⟨(key, value), names, r, by simp; omega⟩
  | ts => do
    let key ← readNode handles .flow names ts
    .ok (key.map ((·, .empty .none)) (Nat.le_refl _))
termination_by 5 * ts.length + 3

end

/-! ### Documents -/

/-- Reads the directives in front of a document: at most one version, of the two that there are, and
no handle twice. Handles that are not defined keep their standard meaning. -/
def readDirectives (version : Bool) (handles : Handles) :
    List Token → Except Fault (Handles × List Token)
  | .versionDirective major minor :: r =>
    if version || major ≠ 1 || !(minor = 1 || minor = 2) then .error .badDirective
    else readDirectives true handles r
  | .tagDirective handle expansion :: r =>
    if handles.any (·.1 = handle) then .error .badDirective
    else readDirectives version (handles ++ [(handle, expansion)]) r
  | ts => .ok (handles ++ Handles.standard, ts)

/-- The tokens of the document are over. -/
def endsDocument : Token → Bool
  | .versionDirective .. | .tagDirective .. | .documentStart | .documentEnd | .streamEnd => true
  | _ => false

/-- Reads the document behind its directives and its opening mark. Without directives the mark may
be missing. -/
def readDocument (ts : List Token) : Except Fault (Node × List Token) := do
  let (handles, r) ← readDirectives false [] ts
  match r with
  | .documentStart :: r =>
    if r.head?.any endsDocument then .ok (.empty .none, r)
    else
      let document ← readNode handles .block [] r
      .ok (document.value, document.rest)
  | r =>
    if r.length = ts.length then
      let document ← readNode handles .block [] r
      .ok (document.value, document.rest)
    else .error .badDirective

/-- The root of the only document. A text without a document is an empty one. -/
def Node.ofTokens (tokens : List Token) : Except Fault Node :=
  if tokens = [.streamEnd] then .ok (.empty .none)
  else do
    let (root, rest) ← readDocument tokens
    if rest.dropWhile (· = .documentEnd) = [.streamEnd] then .ok root else .error .manyDocuments

end LayeredConfig.Yaml
