/-!
# The text of a YAML document

A document is read as a list of spots, characters that know where they stand. Most rules of the
format are about lines and columns.
-/

namespace PointsTo.Yaml

/-! ## Characters -/

def byteOrderMark : Char := Char.ofNat 0xFEFF

/-- Characters that a document may hold. -/
def isPrintable (c : Char) : Bool :=
  let n := c.toNat
  n = 0x9 || n = 0xA || n = 0xD || (0x20 ≤ n && n ≤ 0x7E) || n = 0x85 || (0xA0 ≤ n && n ≤ 0xFFFD)
    || 0x10000 ≤ n

/-- Carriage returns and next lines written as newlines. Line and paragraph separators break lines
too, but stay what they are. -/
def unifyBreaks : List Char → List Char
  | [] => []
  | '\r' :: '\n' :: cs => '\n' :: unifyBreaks cs
  | c :: cs => (if c = '\r' ∨ c.toNat = 0x85 then '\n' else c) :: unifyBreaks cs

def isBlank (c : Char) : Bool := c = ' ' || c = '\t'

def isBreak (c : Char) : Bool := c = '\n' || c.toNat = 0x2028 || c.toNat = 0x2029

def isGap (c : Char) : Bool := isBlank c || isBreak c

def isFlowMark (c : Char) : Bool := c = ',' || c = '[' || c = ']' || c = '{' || c = '}'

/-- No plain scalar starts with one of these. -/
def isIndicator (c : Char) : Bool := isFlowMark c || "#&*!|>'\"%@`".toList.contains c

/-! ## Spots -/

structure Spot where
  char : Char
  line : Nat
  column : Nat
  /-- The number of bytes before the character in its line. -/
  byte : Nat

def spotsFrom : (line column byte : Nat) → List Char → List Spot
  | _, _, _, [] => []
  | line, column, byte, c :: cs =>
    ⟨c, line, column, byte⟩ ::
      if isBreak c then spotsFrom (line + 1) 0 0 cs else spotsFrom line (column + 1) (byte + c.utf8Size) cs

/-- The spots of a text, if it has printable characters only. -/
def spots? (text : String) : Option (List Spot) :=
  if text.toList.all isPrintable then some (spotsFrom 0 0 0 (unifyBreaks text.toList)) else none

/-- The next character satisfies `p`. -/
def starts (p : Char → Bool) (text : List Spot) : Bool := text.head?.any fun s => p s.char

/-- Nothing, a blank or a line break comes next. -/
def atGap (text : List Spot) : Bool := text.isEmpty || starts isGap text

/-- A line starts that divides documents: three hyphens or three dots with a gap behind them. -/
def atMarker : List Spot → Bool
  | a :: b :: c :: rest =>
    a.column = 0 && (a.char = '-' || a.char = '.') && b.char = a.char && c.char = a.char && atGap rest
  | _ => false

/-- The start of the next token, past blanks, comments and line breaks, and whether a key may start
there. A line break allows a key in a block, and where one is allowed, a tab is no blank. A byte order
mark is skipped at the start of a line. -/
def nextToken (inFlow : Bool) : (keyAllowed comment : Bool) → List Spot → Bool × List Spot
  | keyAllowed, _, [] => (keyAllowed, [])
  | keyAllowed, comment, s :: rest =>
    if isBreak s.char then nextToken inFlow (keyAllowed || !inFlow) false rest
    else if comment || s.char = '#' then nextToken inFlow keyAllowed true rest
    else if s.char = ' ' || (s.char = '\t' && (inFlow || !keyAllowed))
        || (s.char = byteOrderMark && s.column = 0) then
      nextToken inFlow keyAllowed false rest
    else (keyAllowed, s :: rest)

/-! ## Gaps in a scalar -/

/-- Blanks and line breaks within a scalar. -/
structure Gap where
  /-- The blanks before the first line break. -/
  blanks : List Char
  breaks : List Char
  rest : List Spot

/-- The gap at the head of a text. Past its first line break no tab may stand before column `least`. -/
def gapFrom? (least : Nat) : (blanks breaks : List Char) → List Spot → Option Gap
  | blanks, breaks, [] => some ⟨blanks.reverse, breaks.reverse, []⟩
  | blanks, breaks, s :: rest =>
    if isBreak s.char then gapFrom? least blanks (s.char :: breaks) rest
    else if !isBlank s.char then some ⟨blanks.reverse, breaks.reverse, s :: rest⟩
    else if breaks = [] then gapFrom? least (s.char :: blanks) breaks rest
    else if s.char = '\t' ∧ s.column < least then none
    else gapFrom? least blanks breaks rest

def gap? (least : Nat) (text : List Spot) : Option Gap := gapFrom? least [] [] text

/-- What a gap stands for: a single newline is a blank, and more of them are one less. -/
def Gap.text (g : Gap) : List Char :=
  match g.breaks with
  | [] => g.blanks
  | ['\n'] => [' ']
  | '\n' :: more => more
  | breaks => breaks

end PointsTo.Yaml
