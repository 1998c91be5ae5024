import PointsTo.Json.Value

/-!
# JSON tokens

The first pass of reading cuts a text into brackets, separators, names, numbers and strings, and
drops the blanks between them.
-/

namespace PointsTo.Json

inductive Token
  | openObj
  | closeObj
  | openArr
  | closeArr
  | comma
  | colon
  | null
  | bool (b : Bool)
  | num (n : Number)
  | str (s : Option String)
  deriving DecidableEq, Repr

/-! ## Strings -/

/-- A quoted string is a run of characters and of 16-bit units written as escapes. -/
inductive Piece
  | char (c : Char)
  | unit (u : Nat)

def hexValue? (c : Char) : Option Nat :=
  if '0' ≤ c ∧ c ≤ '9' then some (c.toNat - '0'.toNat)
  else if 'a' ≤ c ∧ c ≤ 'f' then some (c.toNat - 'a'.toNat + 10)
  else if 'A' ≤ c ∧ c ≤ 'F' then some (c.toNat - 'A'.toNat + 10)
  else none

def unescape? : Char → Option Char
  | '"' => some '"'
  | '\\' => some '\\'
  | '/' => some '/'
  | 'b' => some (Char.ofNat 8)
  | 'f' => some (Char.ofNat 12)
  | 'n' => some '\n'
  | 'r' => some '\r'
  | 't' => some '\t'
  | _ => none

/-- The pieces up to the closing quote, and what follows it; `done` holds those already read, the
last one first. -/
def pieces (done : List Piece) : List Char → Option (List Piece × List Char)
  | [] => none
  | '"' :: rest => some (done.reverse, rest)
  | '\\' :: 'u' :: a :: b :: c :: d :: rest => do
    let unit := (((← hexValue? a) * 16 + (← hexValue? b)) * 16 + (← hexValue? c)) * 16 + (← hexValue? d)
    pieces (.unit unit :: done) rest
  | '\\' :: c :: rest => do pieces (.char (← unescape? c) :: done) rest
  | c :: rest => if c.toNat < 32 then none else pieces (.char c :: done) rest

def isHigh (u : Nat) : Bool := 0xD800 ≤ u ∧ u < 0xDC00

def isLow (u : Nat) : Bool := 0xDC00 ≤ u ∧ u < 0xE000

/-- The characters of a run of pieces; a surrogate must be followed by its other half. -/
def joinPieces (done : List Char) : List Piece → Option (List Char)
  | [] => some done.reverse
  | .char c :: rest => joinPieces (c :: done) rest
  | .unit u :: .unit v :: rest =>
    if isHigh u then
      if isLow v then
        joinPieces (Char.ofNat (0x10000 + (u - 0xD800) * 0x400 + (v - 0xDC00)) :: done) rest
      else none
    else if isLow u then none
    else joinPieces (Char.ofNat u :: done) (.unit v :: rest)
  | .unit u :: rest =>
    if isHigh u || isLow u then none else joinPieces (Char.ofNat u :: done) rest

/-- A string token; its opening quote has been read. -/
def string? (cs : List Char) : Option (Token × List Char) := do
  let (ps, rest) ← pieces [] cs
  return (.str ((joinPieces [] ps).map String.ofList), rest)

/-! ## Numbers -/

def digitsValue (ds : List Char) : Nat := ds.foldl (fun n d => 10 * n + (d.toNat - '0'.toNat)) 0

/-- A run of at least one digit. -/
def digits? (cs : List Char) : Option (List Char × List Char) :=
  match cs.span Char.isDigit with
  | ([], _) => none
  | run => some run

/-- The digits behind a point; none if there is no point. -/
def fraction? : List Char → Option (List Char × List Char)
  | '.' :: rest => digits? rest
  | cs => some ([], cs)

def sign : List Char → Bool × List Char
  | '-' :: rest => (true, rest)
  | '+' :: rest => (false, rest)
  | cs => (false, cs)

/-- The exponent behind its mark; none if there is no mark. -/
def exponent? : List Char → Option (Option Int × List Char)
  | c :: rest =>
    if c = 'e' ∨ c = 'E' then do
      let (negative, rest) := sign rest
      let (ds, rest) ← digits? rest
      let e : Int := digitsValue ds
      return (some (if negative then -e else e), rest)
    else some (none, c :: rest)
  | [] => some (none, [])

/-- A number does not start with a zero that another digit follows. -/
def unsigned? (negative : Bool) (cs : List Char) : Option (Token × List Char) := do
  let (whole, rest) ← digits? cs
  if whole.head? = some '0' ∧ whole.length ≠ 1 then none
  let (frac, rest) ← fraction? rest
  let (exp, rest) ← exponent? rest
  return (.num
    { negative
      digits := digitsValue (whole ++ frac)
      exponent :=
        if frac.isEmpty && exp.isNone then none else some (exp.getD 0 - frac.length) }, rest)

/-! ## All tokens -/

def isBlank (c : Char) : Bool := c = ' ' ∨ c = '\n' ∨ c = '\r' ∨ c = '\t'

/-- The token at the head of a text that starts with no blank. -/
def token? : List Char → Option (Token × List Char)
  | '{' :: rest => some (.openObj, rest)
  | '}' :: rest => some (.closeObj, rest)
  | '[' :: rest => some (.openArr, rest)
  | ']' :: rest => some (.closeArr, rest)
  | ',' :: rest => some (.comma, rest)
  | ':' :: rest => some (.colon, rest)
  | 'n' :: 'u' :: 'l' :: 'l' :: rest => some (.null, rest)
  | 't' :: 'r' :: 'u' :: 'e' :: rest => some (.bool true, rest)
  | 'f' :: 'a' :: 'l' :: 's' :: 'e' :: rest => some (.bool false, rest)
  | '"' :: rest => string? rest
  | '-' :: rest => unsigned? true rest
  | cs => unsigned? false cs

/-- All tokens of a text. A token takes a character at least, so `turns` need not exceed the length
of the text. -/
def tokensWithin : (turns : Nat) → List Char → List Token → Option (List Token)
  | turns, cs, done =>
    match cs.dropWhile isBlank with
    | [] => some done.reverse
    | cs =>
      match turns with
      | 0 => none
      | turns + 1 =>
        match token? cs with
        | none => none
        | some (t, rest) => tokensWithin turns rest (t :: done)

def tokens? (cs : List Char) : Option (List Token) := tokensWithin cs.length cs []

end PointsTo.Json
