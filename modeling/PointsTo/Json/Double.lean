import PointsTo.Json.Value

/-!
# JSON numbers as doubles

A number is read as a double in two factors: the digits that fit into 64 bits, and a power of ten. Each
is rounded to a double before they are multiplied, so close to the largest double the digits decide
about overflow in their own way.
-/

namespace PointsTo.Number

/-- The number of decimal digits of `n`, none for zero. -/
def width (n : Nat) : Nat := if n = 0 then 0 else (Nat.toDigits 10 n).length

/-- The longest row of leading digits below `2 ^ 64`, and the exponent that goes with it. -/
def leading (n : Number) : Nat × Int :=
  let surplus := width n.digits - 20
  let head := n.digits / Nat.pow 10 surplus
  let exponent := n.exponent.getD 0 + surplus
  if head < Nat.pow 2 64 then (head, exponent) else (head / 10, exponent + 1)

/-- The nearest number with 53 significant bits; of two such numbers the even one. -/
def round53 (n : Nat) : Nat :=
  let unit := Nat.pow 2 (n.log2 + 1 - 53)
  let quotient := n / unit
  let excess := 2 * (n % unit)
  let up := unit < excess || (unit = excess && quotient % 2 = 1)
  (if up then quotient + 1 else quotient) * unit

/-- Reading the number as a double does not overflow: the product is nearer to a finite double than
to `2 ^ 1024`. Powers of ten above the 308th are no doubles. -/
def fitsDouble (n : Number) : Bool :=
  let (head, exponent) := n.leading
  head = 0 || exponent < 0 ||
    (exponent ≤ 308
      && round53 head * round53 (Nat.pow 10 exponent.toNat) < Nat.pow 2 1024 - Nat.pow 2 970)

end PointsTo.Number
