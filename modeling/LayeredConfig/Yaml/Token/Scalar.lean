import LayeredConfig.Text.Numeral
import LayeredConfig.Yaml.Cursor
import LayeredConfig.Yaml.Fault

/-!
# Reading scalars

The three ways to write a scalar: plain, between quotes, and as a block below a bar or an angle.

Between the words of a plain or quoted scalar stands a `Gap`. A gap on one line is kept; a gap with
a line break is folded, the first break to a blank if it is the only one, and to nothing before
others. In a folded block a single break between two lines that begin with no blank becomes a blank.

The loops below go word by word or line by line. They stop at the end of the text, whose length they
are given: each round has to come closer to it.
-/

namespace LayeredConfig.Yaml

/-- The white space between two words of a scalar. -/
structure Gap where
  /-- Blanks and tabs before the first break. -/
  blanks : List Char
  /-- The breaks. -/
  breaks : List Char

namespace Gap

/-- No white space. -/
def none : Gap := ⟨[], []⟩

/-- What a gap stands for. -/
def text (g : Gap) : List Char :=
  match g.breaks with
  | [] => g.blanks
  | ['\n'] => [' ']
  | '\n' :: more => more
  | breaks => breaks

/-- Reads white space. `inLine` says that no break was read yet; blanks behind a break are passed
over. Behind a break no tab may stand before the column `indent`. -/
def read (indent : Nat) (inLine : Bool) (g : Gap) (cur : Cursor) : Except Fault (Gap × Cursor) :=
  if _h : cur.sees isSpaceOrTab then
    if inLine then
      read indent true { g with blanks := g.blanks ++ cur.rest.take 1 } (cur.skip 1)
    else if cur.column < indent && cur.sees (· = '\t') then .error .tabIndentation
    else read indent false g (cur.skip 1)
  else if _h : cur.sees isBreak then
    read indent false ⟨[], g.breaks ++ [cur.breakChar]⟩ cur.skipBreak
  else .ok (g, cur)
termination_by cur.rest.length
decreasing_by
  · exact Cursor.length_rest_skip_lt Nat.one_pos (Cursor.ne_nil_of_sees _h)
  · exact Cursor.length_rest_skip_lt Nat.one_pos (Cursor.ne_nil_of_sees _h)
  · exact Cursor.length_rest_skipBreak_lt (Cursor.ne_nil_of_sees _h)

end Gap

/-- A scalar that was read. -/
structure ScalarText where
  /-- Its text. -/
  text : String
  /-- A plain scalar has a line break behind it. -/
  endsLine : Bool
  /-- The place behind it. -/
  cursor : Cursor

/-! ### Plain scalars -/

/-- A character that ends a plain scalar in a flow collection. -/
def isFlowIndicator (c : Char) : Bool :=
  c ∈ [',', '[', ']', '\x7b', '\x7d']

/-- The characters up to a gap, to a colon before a gap, or, in a flow collection, to one of its
indicators. A colon before such an indicator is refused. -/
def plainWord (inFlow : Bool) : List Char → Except Fault (List Char)
  | [] => .ok []
  | c :: r =>
    if isGap c then .ok []
    else if inFlow && c = ':' && (r.head?.any fun d ↦ d = '?' || isFlowIndicator d) then
      .error .ambiguousColon
    else if (c = ':' && gapFollows r) || (inFlow && isFlowIndicator c) then .ok []
    else do
      let word ← plainWord inFlow r
      .ok (c :: word)

/-- Reads the words of a plain scalar. Outside of flow collections it ends before a line that is
indented less than `indent`. -/
def readPlain (total : Nat) (inFlow : Bool) (indent : Nat) (text : String) (gap : Gap)
    (cur : Cursor) : Except Fault ScalarText := do
  let ended : ScalarText := ⟨text, !gap.breaks.isEmpty, cur⟩
  if cur.atDocumentMarker || cur.sees (· = '#') then .ok ended
  else
    match ← plainWord inFlow cur.rest with
    | [] => .ok ended
    | c :: word =>
      let text := text ++ String.ofList (gap.text ++ c :: word)
      let (gap, next) ← Gap.read indent true .none (cur.skip (word.length + 1))
      if !inFlow && next.column < indent then .ok ⟨text, !gap.breaks.isEmpty, next⟩
      else if _h : cur.index < next.index ∧ next.index ≤ total then
        readPlain total inFlow indent text gap next
      else .ok ⟨text, !gap.breaks.isEmpty, next⟩
termination_by total - cur.index

/-! ### Quoted scalars -/

/-- Why a run of characters between quotes ended. -/
inductive QuotedStop where
  /-- At the closing quote. -/
  | quote
  /-- At white space, or at the end of the text. -/
  | gap
  /-- At a break behind a backslash. -/
  | escapedBreak
deriving DecidableEq

/-- A run of characters between quotes. -/
structure QuotedRun where
  /-- What the run stands for. -/
  text : List Char
  /-- How many characters it takes up. -/
  length : Nat
  /-- Why it ended. -/
  stop : QuotedStop

/-- The run with one more character before it, which takes up `n` characters. -/
def QuotedRun.push (c : Char) (n : Nat) (run : QuotedRun) : QuotedRun :=
  ⟨c :: run.text, run.length + n, run.stop⟩

/-- A run between apostrophes; two apostrophes stand for one. -/
def singleRun : List Char → QuotedRun
  | '\'' :: '\'' :: r => (singleRun r).push '\'' 2
  | c :: r =>
    if c = '\'' then ⟨[], 0, .quote⟩
    else if isGap c then ⟨[], 0, .gap⟩
    else (singleRun r).push c 1
  | [] => ⟨[], 0, .gap⟩

/-- The character that a backslash and one character stand for. -/
def simpleEscape? (c : Char) : Option Char :=
  match c with
  | '0' => some (Char.ofNat 0x00)
  | 'a' => some (Char.ofNat 0x07)
  | 'b' => some (Char.ofNat 0x08)
  | 't' | '\t' => some '\t'
  | 'n' => some '\n'
  | 'v' => some (Char.ofNat 0x0b)
  | 'f' => some (Char.ofNat 0x0c)
  | 'r' => some '\r'
  | 'e' => some (Char.ofNat 0x1b)
  | ' ' => some ' '
  | '"' => some '"'
  | '/' => some '/'
  | '\\' => some '\\'
  | 'N' => some (Char.ofNat 0x85)
  | '_' => some (Char.ofNat 0xa0)
  | 'L' => some (Char.ofNat 0x2028)
  | 'P' => some (Char.ofNat 0x2029)
  | _ => none

/-- How many digits follow a backslash and this letter. -/
def escapeWidth? (c : Char) : Option Nat :=
  match c with
  | 'x' => some 2
  | 'u' => some 4
  | 'U' => some 8
  | _ => none

/-- A run between quotation marks, with escapes. -/
def doubleRun (cs : List Char) : Except Fault QuotedRun :=
  match cs with
  | [] => .ok ⟨[], 0, .gap⟩
  | '\\' :: e :: r =>
    if isBreak e then .ok ⟨[], 1, .escapedBreak⟩
    else match simpleEscape? e with
      | some c => do
        let run ← doubleRun r
        .ok (run.push c 2)
      | none =>
        match escapeWidth? e with
        | none => .error .badEscape
        | some width =>
          match Text.hexChar? width r with
          | none => .error .badEscape
          | some c => do
            let run ← doubleRun (r.drop width)
            .ok (run.push c (width + 2))
  | c :: r =>
    if c = '"' then .ok ⟨[], 0, .quote⟩
    else if c = '\\' then .error .badEscape
    else if isGap c then .ok ⟨[], 0, .gap⟩
    else do
      let run ← doubleRun r
      .ok (run.push c 1)
termination_by cs.length
decreasing_by all_goals simp; try omega

/-- Reads a quoted scalar from behind its opening quote. -/
def readQuoted (total : Nat) (single : Bool) (text : String) (cur : Cursor) :
    Except Fault ScalarText := do
  if cur.atDocumentMarker || cur.rest.isEmpty then .error .unclosedQuote
  else
    let run ← if single then .ok (singleRun cur.rest) else doubleRun cur.rest
    let text := text ++ String.ofList run.text
    let behind := cur.skip run.length
    match run.stop with
    | .quote => .ok ⟨text, false, behind.skip 1⟩
    | .gap =>
      let (gap, next) ← Gap.read 0 true .none behind
      if _h : cur.index < next.index ∧ next.index ≤ total then
        readQuoted total single (text ++ String.ofList gap.text) next
      else .error .unclosedQuote
    | .escapedBreak =>
      let (gap, next) ← Gap.read 0 false .none behind.skipBreak
      if _h : cur.index < next.index ∧ next.index ≤ total then
        readQuoted total single (text ++ String.ofList gap.breaks) next
      else .error .unclosedQuote
termination_by total - cur.index

/-! ### Block scalars -/

/-- What is kept of the breaks at the end of a block. -/
inductive Chomping where
  /-- None of them. -/
  | strip
  /-- The first. -/
  | clip
  /-- All of them. -/
  | keep
deriving DecidableEq

/-- The chomping that a sign stands for. -/
def chomping? (c : Char) : Option Chomping :=
  if c = '+' then some .keep else if c = '-' then some .strip else none

/-- The signs behind the bar or angle, in either order: the chomping, and the indentation of the
lines below that of the block, which is not zero. -/
def readBlockSigns (cur : Cursor) : Except Fault (Chomping × Option Nat × Cursor) :=
  let digit? (c : Char) : Option Nat := if Text.isDigit c then some (c.toNat - 48) else none
  match cur.rest with
  | a :: r =>
    match chomping? a, digit? a with
    | some chomping, _ =>
      match r.head?.bind digit? with
      | some 0 => .error .badBlockHeader
      | some n => .ok (chomping, some n, cur.skip 2)
      | none => .ok (chomping, none, cur.skip 1)
    | none, some 0 => .error .badBlockHeader
    | none, some n =>
      match r.head?.bind chomping? with
      | some chomping => .ok (chomping, some n, cur.skip 2)
      | none => .ok (.clip, some n, cur.skip 1)
    | none, none => .ok (.clip, none, cur)
  | [] => .ok (.clip, none, cur)

/-- The breaks of blank lines in a block. -/
structure BlankLines where
  /-- The breaks. -/
  breaks : List Char
  /-- The greatest column that was reached by blanks. -/
  deepest : Nat
  /-- The place of the next line that is not blank, behind its indentation. -/
  cursor : Cursor

/-- Reads blank lines and the indentation of the next line. Without a known indentation all blanks
belong to it. No tab may stand in it. -/
def readBlankLines (indent : Option Nat) (acc : BlankLines) : Except Fault BlankLines :=
  let taken := match indent with
    | some n => (acc.cursor.rest.take (n - acc.cursor.column)).takeWhile (· = ' ')
    | none => acc.cursor.rest.takeWhile (· = ' ')
  let cur := acc.cursor.skip taken.length
  let deepest := max acc.deepest cur.column
  let inside := match indent with
    | some n => cur.column < n
    | none => true
  if inside && cur.sees (· = '\t') then .error .tabIndentation
  else if _h : cur.sees isBreak then
    readBlankLines indent ⟨acc.breaks ++ [cur.breakChar], deepest, cur.skipBreak⟩
  else .ok ⟨acc.breaks, deepest, cur⟩
termination_by acc.cursor.rest.length
decreasing_by
  exact Nat.lt_of_lt_of_le (Cursor.length_rest_skipBreak_lt (Cursor.ne_nil_of_sees _h))
    (Cursor.length_rest_skip_le _ _)

/-- The lines of a block as far as they were read. -/
structure BlockLines where
  /-- The text up to the last line's end. -/
  text : String
  /-- The break behind the last line. -/
  lastBreak : List Char
  /-- The breaks of the blank lines behind it. -/
  blankBreaks : List Char
  /-- The last line begins with a blank. -/
  indented : Bool
  /-- The place where the next line begins. -/
  cursor : Cursor

/-- Reads the lines of a block that are indented by `indent`. -/
def readBlockLines (total : Nat) (literal : Bool) (indent : Nat) (acc : BlockLines) :
    Except Fault BlockLines := do
  if acc.cursor.column ≠ indent ∨ acc.cursor.rest.isEmpty then .ok acc
  else
    let indented := acc.cursor.sees isSpaceOrTab
    let joint :=
      if !literal && acc.lastBreak = ['\n'] && !acc.indented && !indented then
        if acc.blankBreaks.isEmpty then [' '] else []
      else acc.lastBreak
    let (line, behind) := acc.cursor.span (!isBreak ·)
    let text := acc.text ++ String.ofList (joint ++ acc.blankBreaks ++ line)
    let lastBreak := if behind.rest.isEmpty then [] else [behind.breakChar]
    let blank ← readBlankLines (some indent) ⟨[], 0, behind.skipBreak⟩
    if _h : acc.cursor.index < blank.cursor.index ∧ blank.cursor.index ≤ total then
      readBlockLines total literal indent ⟨text, lastBreak, blank.breaks, indented, blank.cursor⟩
    else .ok acc
termination_by total - acc.cursor.index

/-- Reads a block scalar from behind its bar or angle, in a collection indented by `parent`. -/
def readBlock (total : Nat) (literal : Bool) (parent : Option Nat) (cur : Cursor) :
    Except Fault ScalarText := do
  let (chomping, given, cur) ← readBlockSigns cur
  let cur := (cur.skipWhile isSpaceOrTab).skipComment
  if !cur.rest.isEmpty && !cur.sees isBreak then .error .badBlockHeader
  else
    let known := given.map fun n ↦ parent.getD 0 + n
    let blank ← readBlankLines known ⟨[], 0, cur.skipBreak⟩
    let least := match parent with
      | some n => n + 1
      | none => 1
    let indent := known.getD (max blank.deepest least)
    let lines ← readBlockLines total literal indent ⟨"", [], blank.breaks, false, blank.cursor⟩
    let ending := match chomping with
      | .strip => []
      | .clip => lines.lastBreak
      | .keep => lines.lastBreak ++ lines.blankBreaks
    .ok ⟨lines.text ++ String.ofList ending, true, lines.cursor⟩

end LayeredConfig.Yaml
