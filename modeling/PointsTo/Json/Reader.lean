import PointsTo.Json.Token

/-!
# Reading JSON

The second pass reads the tokens from left to right and keeps the open arrays and objects on a
stack, so that a text may be nested to any depth.
-/

namespace PointsTo.Json

/-- An array or object that is still open, its complete parts from last to first. -/
inductive Frame
  | arr (done : List Json)
  | obj (done : List (Option String × Json)) (key : Option String)

inductive Stage
  /-- A value must come next. -/
  | before
  /-- A value has just been read. -/
  | after (v : Json)

def build : Stage → List Frame → List Token → Option Json
  | .before, fs, .null :: ts => build (.after .null) fs ts
  | .before, fs, .bool b :: ts => build (.after (.bool b)) fs ts
  | .before, fs, .num n :: ts => build (.after (.num n)) fs ts
  | .before, fs, .str s :: ts => build (.after (.str s)) fs ts
  | .before, fs, .openArr :: .closeArr :: ts => build (.after (.arr [])) fs ts
  | .before, fs, .openArr :: ts => build .before (.arr [] :: fs) ts
  | .before, fs, .openObj :: .closeObj :: ts => build (.after (.obj [])) fs ts
  | .before, fs, .openObj :: .str k :: .colon :: ts => build .before (.obj [] k :: fs) ts
  | .after v, .arr done :: fs, .comma :: ts => build .before (.arr (v :: done) :: fs) ts
  | .after v, .arr done :: fs, .closeArr :: ts => build (.after (.arr (v :: done).reverse)) fs ts
  | .after v, .obj done k :: fs, .comma :: .str k' :: .colon :: ts =>
    build .before (.obj ((k, v) :: done) k' :: fs) ts
  | .after v, .obj done k :: fs, .closeObj :: ts =>
    build (.after (.obj ((k, v) :: done).reverse)) fs ts
  | .after v, [], [] => some v
  | _, _, _ => none

/-- The value that a text spells; nothing but blanks may stand around it. -/
def read? (text : String) : Option Json := do build .before [] (← tokens? text.toList)

end PointsTo.Json
