import PointsTo.Yaml.Token

/-!
# YAML nodes

The tree that the tokens of one document spell. Where a node is left out, an empty plain scalar takes
its place.
-/

namespace PointsTo.Yaml

inductive Node
  | scalar (plain : Bool) (text : String)
  | sequence (items : List Node)
  | mapping (entries : List (Node × Node))

namespace Node

def empty : Node := .scalar true ""

/-- The next token is one of `ends`. -/
def isNext (ends : List Token) (tokens : List Token) : Bool := tokens.head?.any ends.contains

mutual
/-- The node at the head of `tokens`. In a flow collection no block may start, and only in a mapping may
a sequence be indented no deeper than what holds it. -/
def node? : (turns : Nat) → (inBlock inMapping : Bool) → List Token → Option (Node × List Token)
  | 0, _, _, _ => none
  | turns + 1, inBlock, inMapping, tokens =>
    match tokens with
    | .scalar plain text :: rest => some (.scalar plain text, rest)
    | .flowSequence :: rest => flowItems? turns true [] rest
    | .flowMapping :: rest => flowEntries? turns true [] rest
    | .blockSequence :: rest => if inBlock then blockItems? turns [] rest else none
    | .blockMapping :: rest => if inBlock then blockEntries? turns [] rest else none
    | .item :: _ => if inMapping then looseItems? turns [] tokens else none
    | _ => none

/-- The empty node if one of `ends` comes next. -/
def nodeBefore? : (turns : Nat) → (ends : List Token) → (inBlock inMapping : Bool) → List Token →
    Option (Node × List Token)
  | 0, _, _, _, _ => none
  | turns + 1, ends, inBlock, inMapping, tokens =>
    if isNext ends tokens then some (empty, tokens) else node? turns inBlock inMapping tokens

/-- The node behind a colon; the empty node if there is no colon. -/
def valueBefore? : (turns : Nat) → (ends : List Token) → (inBlock : Bool) → List Token →
    Option (Node × List Token)
  | 0, _, _, _ => none
  | turns + 1, ends, inBlock, .value :: rest => nodeBefore? turns ends inBlock inBlock rest
  | _ + 1, _, _, tokens => some (empty, tokens)

def blockItems? : (turns : Nat) → (done : List Node) → List Token → Option (Node × List Token)
  | turns + 1, done, .item :: rest => do
    let (node, rest) ← nodeBefore? turns [.item, .blockEnd] true false rest
    blockItems? turns (node :: done) rest
  | _, done, .blockEnd :: rest => some (.sequence done.reverse, rest)
  | _, _, _ => none

/-- The items of a sequence that is indented no deeper than the mapping around it. -/
def looseItems? : (turns : Nat) → (done : List Node) → List Token → Option (Node × List Token)
  | 0, _, _ => none
  | turns + 1, done, .item :: rest => do
    let (node, rest) ← nodeBefore? turns [.item, .key, .value, .blockEnd] true false rest
    looseItems? turns (node :: done) rest
  | _ + 1, done, tokens => some (.sequence done.reverse, tokens)

def blockEntries? : (turns : Nat) → (done : List (Node × Node)) → List Token →
    Option (Node × List Token)
  | turns + 1, done, .key :: rest => do
    let ends := [.key, .value, .blockEnd]
    let (key, rest) ← nodeBefore? turns ends true true rest
    let (value, rest) ← valueBefore? turns ends true rest
    blockEntries? turns ((key, value) :: done) rest
  | _, done, .blockEnd :: rest => some (.mapping done.reverse, rest)
  | _, _, _ => none

/-- Commas divide the items; the last one may end with a comma. A key makes a mapping of one entry. If
no node follows a question mark, the token behind it counts for nothing. -/
def flowItems? : (turns : Nat) → (first : Bool) → (done : List Node) → List Token →
    Option (Node × List Token)
  | 0, _, _, _ => none
  | turns + 1, first, done, tokens => do
    if let .flowSequenceEnd :: rest := tokens then return (.sequence done.reverse, rest)
    let tokens ← if first then some tokens else match tokens with
      | .comma :: rest => some rest
      | _ => none
    match tokens with
    | .flowSequenceEnd :: rest => return (.sequence done.reverse, rest)
    | .key :: rest =>
      let ends := [.comma, .flowSequenceEnd]
      let (key, rest) ← if isNext (.value :: ends) rest then some (empty, rest.drop 1)
        else node? turns false false rest
      let (value, rest) ← valueBefore? turns ends false rest
      flowItems? turns false (.mapping [(key, value)] :: done) rest
    | tokens =>
      let (node, rest) ← node? turns false false tokens
      flowItems? turns false (node :: done) rest

/-- Commas divide the entries; the last one may end with a comma. -/
def flowEntries? : (turns : Nat) → (first : Bool) → (done : List (Node × Node)) → List Token →
    Option (Node × List Token)
  | 0, _, _, _ => none
  | turns + 1, first, done, tokens => do
    if let .flowMappingEnd :: rest := tokens then return (.mapping done.reverse, rest)
    let tokens ← if first then some tokens else match tokens with
      | .comma :: rest => some rest
      | _ => none
    match tokens with
    | .flowMappingEnd :: rest => return (.mapping done.reverse, rest)
    | .key :: rest =>
      let ends := [.comma, .flowMappingEnd]
      let (key, rest) ← nodeBefore? turns (.value :: ends) false false rest
      let (value, rest) ← valueBefore? turns ends false rest
      flowEntries? turns false ((key, value) :: done) rest
    | tokens =>
      let (key, rest) ← node? turns false false tokens
      flowEntries? turns false ((key, empty) :: done) rest
end

/-- The root of the one document that `tokens` spell; its end may be marked more than once. -/
def ofTokens? (tokens : List Token) : Option Node := do
  let turns := 3 * tokens.length + 3
  let (root, rest) ← match tokens with
    | [] => some (empty, [])
    | .documentStart :: rest =>
      if rest.isEmpty then some (empty, rest)
      else nodeBefore? turns [.documentStart, .documentEnd] true false rest
    | tokens => node? turns true false tokens
  if rest.all (· = .documentEnd) then some root else none

/-- Reads a text that holds one document at most; the empty node if there is none. -/
def read? (text : String) : Option Node := do ofTokens? (← Token.scan? (← spots? text))

end Node

end PointsTo.Yaml
