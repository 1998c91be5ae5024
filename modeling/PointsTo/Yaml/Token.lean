import PointsTo.Yaml.Scalar

/-!
# YAML tokens

`Token.scan?` divides a document into tokens. Blocks start and end by indentation, which the tokens
make explicit. A key is only known by the colon behind it, so a scalar or collection that may turn out
to be one is kept as a candidate, and its `key` token is put before it when the colon comes.

Block scalars, anchors, tags and directives are not read.
-/

namespace PointsTo.Yaml

inductive Token
  | documentStart
  | documentEnd
  | blockSequence
  | blockMapping
  | blockEnd
  | flowSequence
  | flowSequenceEnd
  | flowMapping
  | flowMappingEnd
  | item
  | comma
  | key
  | value
  | scalar (plain : Bool) (text : String)
  deriving DecidableEq, Repr

/-- A scalar or collection that may turn out to be a key. -/
structure Candidate where
  start : Spot
  /-- The number of tokens before it. -/
  index : Nat
  /-- Nothing but a key can stand there. -/
  required : Bool

/-- A key and its colon stand in one line, at most 1024 bytes apart. -/
def Candidate.reaches (c : Candidate) (colon : Spot) : Bool :=
  c.start.line = colon.line && colon.byte ≤ c.start.byte + 1024

/-- A document that has been divided into tokens up to `rest`. -/
structure Scan where
  rest : List Spot
  tokens : Array Token
  /-- The first column behind that of the innermost block, zero outside all blocks. -/
  inner : Nat
  /-- The same of the blocks around it. -/
  outer : List Nat
  keyAllowed : Bool
  candidate : Option Candidate
  /-- The candidates outside the innermost flow collection, one for each collection. -/
  suspended : List (Option Candidate)

namespace Scan

def start (text : List Spot) : Scan := ⟨text, #[], 0, [], true, none, []⟩

def inFlow (s : Scan) : Bool := !s.suspended.isEmpty

def push (s : Scan) (t : Token) (rest : List Spot) : Scan :=
  { s with tokens := s.tokens.push t, rest := rest }

/-! ## Candidates -/

def dropCandidate? (s : Scan) : Option Scan :=
  if s.candidate.any (·.required) then none else some { s with candidate := none }

/-- Takes what starts at `spot` for a candidate where a key is allowed. -/
def propose? (s : Scan) (spot : Spot) : Option Scan := do
  if !s.keyAllowed then return s
  let s ← s.dropCandidate?
  return { s with
    candidate := some ⟨spot, s.tokens.size, !s.inFlow && s.inner = spot.column + 1⟩ }

/-! ## Blocks -/

/-- Starts a block at `column` if that is deeper than the innermost one. -/
def openBlock (s : Scan) (column index : Nat) (t : Token) : Scan :=
  if s.inFlow || column < s.inner then s
  else { s with
    inner := column + 1
    outer := s.inner :: s.outer
    tokens := s.tokens.insertIdxIfInBounds index t }

def closeUntil (least : Nat) : (inner : Nat) → (outer : List Nat) → Array Token →
    Nat × List Nat × Array Token
  | inner, [], tokens => (inner, [], tokens)
  | inner, next :: outer, tokens =>
    if least < inner then closeUntil least next outer (tokens.push .blockEnd)
    else (inner, next :: outer, tokens)

/-- Ends the blocks that are deeper than `least`. -/
def closeBlocks (s : Scan) (least : Nat) : Scan :=
  if s.inFlow then s
  else
    let (inner, outer, tokens) := closeUntil least s.inner s.outer s.tokens
    { s with inner := inner, outer := outer, tokens := tokens }

/-! ## Tokens -/

def marker? (s : Scan) (t : Token) (rest : List Spot) : Option Scan := do
  let s ← (s.closeBlocks 0).dropCandidate?
  return { s with keyAllowed := false }.push t rest

def openFlow? (s : Scan) (t : Token) (spot : Spot) (rest : List Spot) : Option Scan := do
  let s ← s.propose? spot
  return { s with
    candidate := none
    suspended := s.candidate :: s.suspended
    keyAllowed := true }.push t rest

def closeFlow? (s : Scan) (t : Token) (rest : List Spot) : Option Scan := do
  let s ← s.dropCandidate?
  return { s with
    candidate := s.suspended.headD none
    suspended := s.suspended.tail
    keyAllowed := false }.push t rest

def comma? (s : Scan) (rest : List Spot) : Option Scan := do
  let s ← s.dropCandidate?
  return { s with keyAllowed := true }.push .comma rest

def item? (s : Scan) (spot : Spot) (rest : List Spot) : Option Scan := do
  if !s.inFlow && !s.keyAllowed then none
  let s ← (s.openBlock spot.column s.tokens.size .blockSequence).dropCandidate?
  return { s with keyAllowed := true }.push .item rest

/-- A question mark announces a key. -/
def key? (s : Scan) (spot : Spot) (rest : List Spot) : Option Scan := do
  if !s.inFlow && !s.keyAllowed then none
  let s ← (s.openBlock spot.column s.tokens.size .blockMapping).dropCandidate?
  return { s with keyAllowed := !s.inFlow }.push .key rest

/-- A colon makes a key of the candidate that reaches it. -/
def value? (s : Scan) (spot : Spot) (rest : List Spot) : Option Scan :=
  match s.candidate.filter (·.reaches spot) with
  | some c =>
    let s := { s with
      tokens := s.tokens.insertIdxIfInBounds c.index .key
      candidate := none
      keyAllowed := false }
    some ((s.openBlock c.start.column c.index .blockMapping).push .value rest)
  | none => do
    let s ← s.dropCandidate?
    if !s.inFlow && !s.keyAllowed then none
    let s := s.openBlock spot.column s.tokens.size .blockMapping
    return { s with keyAllowed := !s.inFlow }.push .value rest

def quotedScalar? (s : Scan) (turns : Nat) (spot : Spot) (rest : List Spot) : Option Scan := do
  let s ← s.propose? spot
  let (text, rest) ← quoted? spot.char turns [] rest
  return { s with keyAllowed := false }.push (.scalar false (String.ofList text)) rest

def plainScalar? (s : Scan) (turns : Nat) (spot : Spot) (rest : List Spot) : Option Scan := do
  if !startsPlain s.inFlow (spot :: rest) then none
  let s ← s.propose? spot
  let (text, broken, rest) ← plain? s.inFlow s.inner turns [] [] false (spot :: rest)
  return { s with keyAllowed := broken }.push (.scalar true (String.ofList text)) rest

/-- Reads the token that starts at `spot`. Any number of `turns` above the length of the text that is
left will do. -/
def token? (s : Scan) (turns : Nat) (spot : Spot) (rest : List Spot) : Option Scan :=
  let s := s.closeBlocks (spot.column + 1)
  let c := spot.char
  if atMarker (spot :: rest) then
    s.marker? (if c = '-' then .documentStart else .documentEnd) (rest.drop 2)
  else if c = '[' then s.openFlow? .flowSequence spot rest
  else if c = '{' then s.openFlow? .flowMapping spot rest
  else if c = ']' then s.closeFlow? .flowSequenceEnd rest
  else if c = '}' then s.closeFlow? .flowMappingEnd rest
  else if c = ',' then s.comma? rest
  else if c = '-' && atGap rest then s.item? spot rest
  else if c = '?' && (s.inFlow || atGap rest) then s.key? spot rest
  else if c = ':' && (s.inFlow || atGap rest) then s.value? spot rest
  else if c = '\'' || c = '"' then s.quotedScalar? turns spot rest
  else s.plainScalar? turns spot rest

def finish? : (turns : Nat) → Scan → Option (List Token)
  | 0, _ => none
  | turns + 1, s =>
    let (keyAllowed, rest) := nextToken s.inFlow s.keyAllowed false s.rest
    let s := { s with keyAllowed := keyAllowed }
    match rest with
    | [] => (s.closeBlocks 0).dropCandidate?.map (·.tokens.toList)
    | spot :: rest => (s.token? (turns + 1) spot rest).bind (finish? turns)

end Scan

def Token.scan? (text : List Spot) : Option (List Token) := (Scan.start text).finish? (text.length + 1)

end PointsTo.Yaml
