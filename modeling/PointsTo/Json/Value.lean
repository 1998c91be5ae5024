/-!
# JSON values

The tree that a JSON text spells, as written: members keep their order and may repeat, and a number
keeps its digits. A quoted string may spell half of a surrogate pair, which no text contains; such a
string is `none`.
-/

namespace PointsTo

/-- The number `± digits · 10 ^ exponent`. An integer literal has neither fraction nor exponent. -/
structure Number where
  negative : Bool
  digits : Nat
  exponent : Option Int
  deriving DecidableEq, Repr

namespace Number

def ofNat (n : Nat) : Number := ⟨false, n, none⟩

/-- The value of an unsigned integer literal. -/
def toNat? (n : Number) : Option Nat := if n.exponent.isNone && !n.negative then some n.digits else none

end Number

inductive Json
  | null
  | bool (b : Bool)
  | num (n : Number)
  | str (s : Option String)
  | arr (items : List Json)
  | obj (members : List (Option String × Json))
  deriving Inhabited

namespace Json

def nat (n : Nat) : Json := .num (Number.ofNat n)

def text (s : String) : Json := .str (some s)

/-- An object with the given members. -/
def record (members : List (String × Json)) : Json := .obj (members.map fun (k, v) => (some k, v))

end Json

end PointsTo
