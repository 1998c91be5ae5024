import PointsTo.Yaml.Spot

/-!
# YAML scalars

Quoted scalars end with their closing quote. Plain ones end before a comment, before a colon with a gap
behind it, and where the indentation of their block ends.
-/

namespace PointsTo.Yaml

/-! ## Quoted scalars -/

/-- The character that `n` hexadecimal digits at the head of a text stand for. -/
def hex? (n : Nat) (text : List Spot) : Option (Char × List Spot) := do
  let digit (value : Nat) (s : Spot) : Option Nat :=
    let c := s.char
    if '0' ≤ c ∧ c ≤ '9' then some (16 * value + (c.toNat - '0'.toNat))
    else if 'a' ≤ c ∧ c ≤ 'f' then some (16 * value + (c.toNat - 'a'.toNat + 10))
    else if 'A' ≤ c ∧ c ≤ 'F' then some (16 * value + (c.toNat - 'A'.toNat + 10))
    else none
  let digits := text.take n
  let value ← digits.foldlM digit 0
  if digits.length = n ∧ value.isValidChar then some (Char.ofNat value, text.drop n) else none

def escaped? : Char → Option Char
  | '0' => some (Char.ofNat 0)
  | 'a' => some (Char.ofNat 7)
  | 'b' => some (Char.ofNat 8)
  | 't' | '\t' => some '\t'
  | 'n' => some '\n'
  | 'v' => some (Char.ofNat 11)
  | 'f' => some (Char.ofNat 12)
  | 'r' => some '\r'
  | 'e' => some (Char.ofNat 27)
  | ' ' => some ' '
  | '"' => some '"'
  | '/' => some '/'
  | '\\' => some '\\'
  | 'N' => some (Char.ofNat 0x85)
  | '_' => some (Char.ofNat 0xA0)
  | 'L' => some (Char.ofNat 0x2028)
  | 'P' => some (Char.ofNat 0x2029)
  | _ => none

/-- The text that an escape stands for, read past its backslash. An escaped line break stands for
nothing, and for each empty line below it a newline. -/
def escape? : List Spot → Option (List Char × List Spot)
  | [] => none
  | s :: rest =>
    if isBreak s.char then (gap? 0 rest).map fun g => (g.breaks, g.rest)
    else
      let one : Char × List Spot → List Char × List Spot := fun (c, rest) => ([c], rest)
      match s.char with
      | 'x' => (hex? 2 rest).map one
      | 'u' => (hex? 4 rest).map one
      | 'U' => (hex? 8 rest).map one
      | c => (escaped? c).map fun c => ([c], rest)

/-- The text up to the closing quote and what follows; `done` is in reverse order. No line of the
scalar is a document marker. A single quote is written twice within single quotes. -/
def quoted? (quote : Char) :
    (turns : Nat) → (done : List Char) → List Spot → Option (List Char × List Spot)
  | 0, _, _ | _, _, [] => none
  | turns + 1, done, s :: rest =>
    if atMarker (s :: rest) then none
    else if isGap s.char then do
      let g ← gap? 0 (s :: rest)
      quoted? quote turns (g.text.reverse ++ done) g.rest
    else if s.char = quote then
      if quote = '\'' && starts (· = '\'') rest then quoted? quote turns (quote :: done) (rest.drop 1)
      else some (done.reverse, rest)
    else if quote = '"' && s.char = '\\' then do
      let (cs, rest) ← escape? rest
      quoted? quote turns (cs.reverse ++ done) rest
    else quoted? quote turns (s.char :: done) rest

/-! ## Plain scalars -/

def startsPlain (inFlow : Bool) : List Spot → Bool
  | [] => false
  | s :: rest =>
    if s.char = '-' then !atGap rest
    else if s.char = '?' ∨ s.char = ':' then !inFlow && !atGap rest
    else !isIndicator s.char && !isGap s.char

/-- The part of a plain scalar up to its next gap or its end, in reverse order like `done`. In flow
style it also ends before a mark, and no mark may follow a colon. -/
def word? (inFlow : Bool) : (done : List Char) → List Spot → Option (List Char × List Spot)
  | done, [] => some (done, [])
  | done, s :: rest =>
    if isGap s.char then some (done, s :: rest)
    else if inFlow && s.char = ':' && starts (fun c => isFlowMark c || c = '?') rest then none
    else if (s.char = ':' && atGap rest) || (inFlow && isFlowMark s.char) then some (done, s :: rest)
    else word? inFlow (s.char :: done) rest

/-- A plain scalar, whether a line break follows it, and where the next token or comment starts. Below
its first line a scalar in a block starts at column `least` or behind it. The text read before is
`done`, in reverse order, and the gap behind that is `between`. -/
def plain? (inFlow : Bool) (least : Nat) : (turns : Nat) → (done between : List Char) →
    (broken : Bool) → List Spot → Option (List Char × Bool × List Spot)
  | 0, _, _, _, _ => none
  | turns + 1, done, between, broken, text => do
    if atMarker text || starts (· = '#') text then return (done.reverse, broken, text)
    let (word, rest) ← word? inFlow [] text
    if word.isEmpty then return (done.reverse, broken, text)
    let done := word ++ (between.reverse ++ done)
    if !starts isGap rest then return (done.reverse, false, rest)
    let g ← gap? least rest
    if !inFlow && g.rest.head?.any fun s => s.column < least then
      return (done.reverse, !g.breaks.isEmpty, g.rest)
    plain? inFlow least turns done g.text (!g.breaks.isEmpty) g.rest

end PointsTo.Yaml
