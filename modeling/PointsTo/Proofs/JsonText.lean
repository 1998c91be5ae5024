import Mathlib.Data.List.TakeDrop
import PointsTo.Json.Printer
import PointsTo.Json.Reader

/-!
# Reading back a JSON text

A value is written as a row of tokens. Behind a number there is a separator,
a bracket or nothing, so the first pass of reading finds the tokens again, and
the second pass the value: `read?_compact`.
-/

namespace PointsTo.Json

/-! ## Strings -/

def Piece.whole? : Piece → Option Char
  | .char c => some c
  | .unit u => if isHigh u || isLow u then none else some (Char.ofNat u)

theorem joinPieces_cons {p : Piece} {c : Char} (h : p.whole? = some c) (done : List Char) (ps : List Piece) :
    joinPieces done (p :: ps) = joinPieces (c :: done) ps := by
  cases p with
  | char c' => cases h; rfl
  | unit u =>
    by_cases hu : isHigh u || isLow u
    · simp [Piece.whole?, hu] at h
    · have hc : Char.ofNat u = c := by simpa [Piece.whole?, hu] using h
      rcases ps with _ | ⟨_ | v, ps⟩ <;> simp_all [joinPieces]

theorem joinPieces_map {ps : List Piece} {cs : List Char} (h : ps.map Piece.whole? = cs.map some)
    (done : List Char) : joinPieces done ps = some (done.reverse ++ cs) := by
  induction ps generalizing cs done with
  | nil => simp_all [joinPieces]
  | cons p ps ih =>
    cases cs with
    | nil => simp at h
    | cons c cs =>
      simp only [List.map_cons, List.cons.injEq] at h
      rw [joinPieces_cons h.1, ih h.2]
      simp

theorem hexValue?_hexDigit : ∀ n < 16, hexValue? (hexDigit n) = some n := by decide

theorem whole?_unit_of_lt {c : Char} (h : c.toNat < 32) : (Piece.unit c.toNat).whole? = some c := by
  have hhigh : isHigh c.toNat = false := by simp [isHigh]; omega
  have hlow : isLow c.toNat = false := by simp [isLow]; omega
  simp [Piece.whole?, hhigh, hlow, Char.ofNat_toNat]

theorem eq_ofNat {c : Char} {n : Nat} (h : c.toNat = n) : Char.ofNat n = c := by
  rw [← h, Char.ofNat_toNat]

theorem pieces_control {c : Char} (h : c.toNat < 32) (done : List Piece) (rest : List Char) :
    pieces done ('\\' :: 'u' :: '0' :: '0' :: hexDigit (c.toNat / 16) :: hexDigit (c.toNat % 16) :: rest) =
      pieces (.unit c.toNat :: done) rest := by
  have hzero : hexValue? '0' = some 0 := by decide
  have hhigh := hexValue?_hexDigit (c.toNat / 16) (by omega)
  have hlow := hexValue?_hexDigit (c.toNat % 16) (by omega)
  simp [pieces, hzero, hhigh, hlow, Nat.div_add_mod']

theorem pieces_plain {c : Char} (hquote : c ≠ '"') (hback : c ≠ '\\') (h : ¬ c.toNat < 32)
    (done : List Piece) (rest : List Char) : pieces done (c :: rest) = pieces (.char c :: done) rest := by
  rw [pieces.eq_def]
  split
  case h_5 heq =>
    obtain ⟨rfl, rfl⟩ := List.cons.inj heq
    exact if_neg h
  all_goals simp_all

/-- Each character is read as one piece. -/
theorem pieces_escape (c : Char) : ∃ p : Piece, p.whole? = some c ∧
    ∀ done rest, pieces done (escape c ++ rest) = pieces (p :: done) rest := by
  by_cases hquote : c = '"'
  · subst hquote; exact ⟨.char '"', rfl, fun _ _ => rfl⟩
  by_cases hback : c = '\\'
  · subst hback; exact ⟨.char '\\', rfl, fun _ _ => rfl⟩
  by_cases hn : c = '\n'
  · subst hn; exact ⟨.char '\n', rfl, fun _ _ => rfl⟩
  by_cases hr : c = '\r'
  · subst hr; exact ⟨.char '\r', rfl, fun _ _ => rfl⟩
  by_cases ht : c = '\t'
  · subst ht; exact ⟨.char '\t', rfl, fun _ _ => rfl⟩
  by_cases hb : c.toNat = 8
  · obtain rfl := eq_ofNat hb; exact ⟨.char _, rfl, fun _ _ => rfl⟩
  by_cases hf : c.toNat = 12
  · obtain rfl := eq_ofNat hf; exact ⟨.char _, rfl, fun _ _ => rfl⟩
  by_cases hctl : c.toNat < 32
  · refine ⟨.unit c.toNat, whole?_unit_of_lt hctl, fun done rest => ?_⟩
    simp [escape, *, pieces_control hctl]
  · refine ⟨.char c, rfl, fun done rest => ?_⟩
    simp [escape, *, pieces_plain hquote hback hctl]

theorem pieces_flatMap_escape (cs : List Char) : ∃ ps : List Piece, ps.map Piece.whole? = cs.map some ∧
    ∀ done rest, pieces done (cs.flatMap escape ++ '"' :: rest) = some (done.reverse ++ ps, rest) := by
  induction cs with
  | nil => exact ⟨[], rfl, fun done rest => by simp [pieces]⟩
  | cons c cs ih =>
    obtain ⟨p, hp, hc⟩ := pieces_escape c
    obtain ⟨ps, hps, hcs⟩ := ih
    refine ⟨p :: ps, by simp [hp, hps], fun done rest => ?_⟩
    simp [hc, hcs]

theorem token?_half (rest : List Char) : token? (quote none ++ rest) = some (.str none, rest) := by
  have hchars : quote none = ['"', '\\', 'u', 'd', '8', '0', '0', '"'] := by decide
  have hd : hexValue? 'd' = some 13 := by decide
  have height : hexValue? '8' = some 8 := by decide
  have hzero : hexValue? '0' = some 0 := by decide
  have hpieces : pieces [] ('\\' :: 'u' :: 'd' :: '8' :: '0' :: '0' :: '"' :: rest) =
      some ([.unit 0xD800], rest) := by
    simp [pieces, hd, height, hzero]
  have hjoin : joinPieces [] [.unit 0xD800] = none := by decide
  simp [hchars, token?, string?, hpieces, hjoin]

theorem quote_ne_nil (s : Option String) : quote s ≠ [] := by
  cases s with
  | none => decide
  | some s => exact List.cons_ne_nil _ _

theorem token?_quote (s : Option String) (rest : List Char) :
    token? (quote s ++ rest) = some (.str s, rest) := by
  cases s with
  | none => exact token?_half rest
  | some s =>
    obtain ⟨ps, hps, hread⟩ := pieces_flatMap_escape s.toList
    have hquote : quote (some s) = '"' :: (s.toList.flatMap escape ++ ['"']) := rfl
    simp [hquote, token?, string?, hread, joinPieces_map hps]

/-! ## Numbers -/

inductive Delimited : List Char → Prop
  | nil : Delimited []
  | comma (cs : List Char) : Delimited (',' :: cs)
  | closeArr (cs : List Char) : Delimited (']' :: cs)
  | closeObj (cs : List Char) : Delimited ('}' :: cs)

theorem digitsValue_toDigits (n : Nat) : digitsValue (Nat.toDigits 10 n) = n := by
  have h := Nat.ofDigitChars_ten_toDigits (n := n)
  rwa [Nat.ofDigitChars_eq_foldl] at h

theorem digits?_toDigits (n : Nat) {rest : List Char} (h : ∀ c ∈ rest.head?, c.isDigit = false) :
    digits? (Nat.toDigits 10 n ++ rest) = some (Nat.toDigits 10 n, rest) := by
  have hdigit : ∀ c ∈ Nat.toDigits 10 n, c.isDigit = true :=
    fun c hc => Nat.isDigit_of_mem_toDigits (by decide) (by decide) hc
  have hrest : rest.takeWhile Char.isDigit = [] ∧ rest.dropWhile Char.isDigit = rest := by
    cases rest with
    | nil => simp
    | cons c cs => simp [h c rfl]
  have hspan : (Nat.toDigits 10 n ++ rest).span Char.isDigit = (Nat.toDigits 10 n, rest) := by
    rw [List.span_eq_takeWhile_dropWhile, List.takeWhile_append_of_pos hdigit,
      List.dropWhile_append_of_pos hdigit, hrest.1, hrest.2, List.append_nil]
  unfold digits?
  rw [hspan]
  split <;> simp_all

theorem head?_toDigits {n : Nat} (h : n ≠ 0) : (Nat.toDigits 10 n).head? ≠ some '0' := by
  induction n using Nat.strongRecOn with
  | _ n ih =>
    by_cases hn : n < 10
    · rw [Nat.toDigits_of_lt_base hn]
      simpa using h
    · rw [Nat.toDigits_of_base_le (by decide) (by omega), List.head?_append]
      have hhead := ih (n / 10) (by omega) (by omega)
      cases hds : Nat.toDigits 10 (n / 10) with
      | nil => exact absurd hds Nat.toDigits_ne_nil
      | cons d ds => simpa [hds] using hhead

theorem Delimited.not_digit {rest : List Char} (h : Delimited rest) : ∀ c ∈ rest.head?, c.isDigit = false := by
  cases h <;> simp [Char.isDigit]

theorem exponentChars_not_digit (e : Option Int) {rest : List Char} (h : Delimited rest) :
    ∀ c ∈ (exponentChars e ++ rest).head?, c.isDigit = false := by
  cases e with
  | none => exact h.not_digit
  | some e => simp [exponentChars, Char.isDigit]

theorem fraction?_exponentChars (e : Option Int) {rest : List Char} (h : Delimited rest) :
    fraction? (exponentChars e ++ rest) = some ([], exponentChars e ++ rest) := by
  cases e with
  | none => cases h <;> rfl
  | some e => rfl

theorem sign_toDigits (n : Nat) (rest : List Char) :
    sign (Nat.toDigits 10 n ++ rest) = (false, Nat.toDigits 10 n ++ rest) := by
  cases hds : Nat.toDigits 10 n with
  | nil => exact absurd hds Nat.toDigits_ne_nil
  | cons d ds =>
    have hd : d.isDigit = true :=
      Nat.isDigit_of_mem_toDigits (by decide) (by decide) (hds ▸ List.mem_cons_self)
    unfold sign
    split <;> simp_all [Char.isDigit]

theorem exponent?_exponentChars (e : Option Int) {rest : List Char} (h : Delimited rest) :
    exponent? (exponentChars e ++ rest) = some (e, rest) := by
  cases e with
  | none => cases h <;> rfl
  | some e =>
    by_cases he : e < 0
    · obtain ⟨n, hn, rfl⟩ : ∃ n : Nat, 0 < n ∧ e = -n := ⟨e.natAbs, by omega, by omega⟩
      simp [exponentChars, hn, exponent?, sign, digits?_toDigits n h.not_digit, digitsValue_toDigits]
    · obtain ⟨n, rfl⟩ : ∃ n : Nat, e = n := ⟨e.natAbs, by omega⟩
      simp [exponentChars, he, exponent?, sign_toDigits, digits?_toDigits n h.not_digit, digitsValue_toDigits]

theorem unsigned?_chars (negative : Bool) (n : Nat) (e : Option Int) {rest : List Char} (h : Delimited rest) :
    unsigned? negative (Nat.toDigits 10 n ++ (exponentChars e ++ rest)) = some (.num ⟨negative, n, e⟩, rest) := by
  have hlead : ¬ ((Nat.toDigits 10 n).head? = some '0' ∧ (Nat.toDigits 10 n).length ≠ 1) := by
    by_cases hn : n = 0
    · simp [hn]
    · simp [head?_toDigits hn]
  have hexp : (if e = none then none else some (e.getD 0)) = e := by cases e <;> simp
  simp [unsigned?, digits?_toDigits n (exponentChars_not_digit e h), hlead, fraction?_exponentChars e h,
    exponent?_exponentChars e h, digitsValue_toDigits, hexp]

theorem token?_of_isDigit {c : Char} (h : c.isDigit = true) (cs : List Char) :
    token? (c :: cs) = unsigned? false (c :: cs) := by
  unfold token?
  split <;> simp_all [Char.isDigit]

theorem token?_numberChars (n : Number) {rest : List Char} (h : Delimited rest) :
    token? (numberChars n ++ rest) = some (.num n, rest) := by
  obtain ⟨negative, digits, exponent⟩ := n
  have hread := unsigned?_chars negative digits exponent h
  cases negative with
  | true => simpa [numberChars, token?] using hread
  | false =>
    have hchars : numberChars ⟨false, digits, exponent⟩ ++ rest =
        Nat.toDigits 10 digits ++ (exponentChars exponent ++ rest) := by
      simp [numberChars]
    rw [hchars, ← hread]
    cases hds : Nat.toDigits 10 digits with
    | nil => exact absurd hds Nat.toDigits_ne_nil
    | cons d ds =>
      have hd : d ∈ Nat.toDigits 10 digits := hds ▸ List.mem_cons_self
      exact token?_of_isDigit (Nat.isDigit_of_mem_toDigits (by decide) (by decide) hd) _

/-! ## The first pass -/

mutual
def tokens : Json → List Token
  | .null => [.null]
  | .bool b => [.bool b]
  | .num n => [.num n]
  | .str s => [.str s]
  | .arr [] => [.openArr, .closeArr]
  | .arr (x :: xs) => .openArr :: (tokens x ++ itemTokens xs)
  | .obj [] => [.openObj, .closeObj]
  | .obj ((k, v) :: ms) => .openObj :: .str k :: .colon :: (tokens v ++ memberTokens ms)

def itemTokens : List Json → List Token
  | [] => [.closeArr]
  | x :: xs => .comma :: (tokens x ++ itemTokens xs)

def memberTokens : List (Option String × Json) → List Token
  | [] => [.closeObj]
  | (k, v) :: ms => .comma :: .str k :: .colon :: (tokens v ++ memberTokens ms)
end

theorem isBlank_of_token? {c : Char} {cs : List Char} {r : Token × List Char}
    (h : token? (c :: cs) = some r) : isBlank c = false := by
  have hblank : ∀ b, isBlank b = true → b ≠ c := by
    intro b hb hbc
    simp only [isBlank, decide_eq_true_eq] at hb
    rcases hb with rfl | rfl | rfl | rfl <;> subst hbc <;>
      simp [token?, unsigned?, digits?, List.span_eq_takeWhile_dropWhile, Char.isDigit] at h
  by_cases hc : isBlank c
  · exact absurd rfl (hblank c hc)
  · simpa using hc

/-- The text consists of the tokens, without blanks. -/
inductive Lexes : List Char → List Token → Prop
  | nil : Lexes [] []
  | token {cs rest : List Char} {t : Token} {ts : List Token} : cs ≠ [] →
      token? (cs ++ rest) = some (t, rest) → Lexes rest ts → Lexes (cs ++ rest) (t :: ts)

namespace Lexes
variable {rest : List Char} {ts : List Token}

theorem tokensWithin {cs : List Char} (h : Lexes cs ts) : ∀ turns done, cs.length ≤ turns →
    tokensWithin turns cs done = some (done.reverse ++ ts) := by
  induction h with
  | nil =>
    intro turns done _
    simp [Json.tokensWithin]
  | @token cs rest t ts hcs htoken _ ih =>
    intro turns done hlen
    obtain ⟨c, cs, rfl⟩ := List.exists_cons_of_ne_nil hcs
    cases turns with
    | zero => simp at hlen
    | succ turns =>
      simp only [List.length_append, List.length_cons] at hlen
      simp only [List.cons_append] at htoken
      simp [Json.tokensWithin, isBlank_of_token? htoken, htoken, ih turns (t :: done) (by omega)]

theorem char {c : Char} {t : Token} (ht : token? (c :: rest) = some (t, rest)) (h : Lexes rest ts) :
    Lexes (c :: rest) (t :: ts) :=
  @token [c] rest t ts (by simp) ht h

theorem quote (s : Option String) (h : Lexes rest ts) : Lexes (quote s ++ rest) (.str s :: ts) :=
  token (quote_ne_nil s) (token?_quote s rest) h

theorem number (n : Number) (hrest : Delimited rest) (h : Lexes rest ts) :
    Lexes (numberChars n ++ rest) (.num n :: ts) :=
  token (by simp [numberChars, Nat.toDigits_ne_nil]) (token?_numberChars n hrest) h

end Lexes

theorem delimited_itemChars (xs : List Json) (rest : List Char) : Delimited (itemChars xs ++ rest) := by
  cases xs with
  | nil => exact .closeArr rest
  | cons x xs => exact .comma _

theorem delimited_memberChars (ms : List (Option String × Json)) (rest : List Char) :
    Delimited (memberChars ms ++ rest) := by
  cases ms with
  | nil => exact .closeObj rest
  | cons m ms => exact .comma _

mutual
theorem lexes_chars : ∀ (j : Json) {rest : List Char} {ts : List Token}, Delimited rest → Lexes rest ts →
    Lexes (chars j ++ rest) (tokens j ++ ts)
  | .null, _, _, _, h => @Lexes.token ['n', 'u', 'l', 'l'] _ _ _ (by simp) rfl h
  | .bool true, _, _, _, h => @Lexes.token ['t', 'r', 'u', 'e'] _ _ _ (by simp) rfl h
  | .bool false, _, _, _, h => @Lexes.token ['f', 'a', 'l', 's', 'e'] _ _ _ (by simp) rfl h
  | .num n, _, _, hrest, h => .number n hrest h
  | .str s, _, _, _, h => .quote s h
  | .arr [], _, _, _, h => .char rfl (.char rfl h)
  | .arr (x :: xs), rest, _, _, h => by
    have hx := lexes_chars x (delimited_itemChars xs rest) (lexes_itemChars xs h)
    simpa [chars, tokens] using hx.char rfl
  | .obj [], _, _, _, h => .char rfl (.char rfl h)
  | .obj ((k, v) :: ms), rest, _, _, h => by
    have hv := lexes_chars v (delimited_memberChars ms rest) (lexes_memberChars ms h)
    simpa [chars, tokens] using ((hv.char rfl).quote k).char rfl

theorem lexes_itemChars : ∀ (xs : List Json) {rest : List Char} {ts : List Token}, Lexes rest ts →
    Lexes (itemChars xs ++ rest) (itemTokens xs ++ ts)
  | [], _, _, h => .char rfl h
  | x :: xs, rest, _, h => by
    have hx := lexes_chars x (delimited_itemChars xs rest) (lexes_itemChars xs h)
    simpa [itemChars, itemTokens] using hx.char rfl

theorem lexes_memberChars : ∀ (ms : List (Option String × Json)) {rest : List Char} {ts : List Token},
    Lexes rest ts → Lexes (memberChars ms ++ rest) (memberTokens ms ++ ts)
  | [], _, _, h => .char rfl h
  | (k, v) :: ms, rest, _, h => by
    have hv := lexes_chars v (delimited_memberChars ms rest) (lexes_memberChars ms h)
    simpa [memberChars, memberTokens] using ((hv.char rfl).quote k).char rfl
end

theorem tokens?_chars (j : Json) : tokens? j.chars = some j.tokens := by
  have h := (lexes_chars j .nil .nil).tokensWithin
  simp only [List.append_nil] at h
  exact h _ [] (Nat.le_refl _)

/-! ## The second pass -/

theorem tokens_head (j : Json) : ∃ t ts, j.tokens = t :: ts ∧ t ≠ .closeArr := by
  cases j with
  | arr xs => cases xs <;> simp [tokens]
  | obj ms => cases ms <;> simp [tokens]
  | _ => simp [tokens]

theorem build_openArr (fs : List Frame) (j : Json) (ts : List Token) :
    build .before fs (.openArr :: (tokens j ++ ts)) = build .before (.arr [] :: fs) (tokens j ++ ts) := by
  obtain ⟨t, us, ht, hne⟩ := tokens_head j
  rw [ht]
  cases t with
  | closeArr => exact absurd rfl hne
  | _ => rfl

mutual
theorem build_tokens : ∀ (j : Json) (fs : List Frame) (ts : List Token),
    build .before fs (tokens j ++ ts) = build (.after j) fs ts
  | .null, _, _ | .bool _, _, _ | .num _, _, _ | .str _, _, _ | .arr [], _, _ | .obj [], _, _ => rfl
  | .arr (x :: xs), fs, ts => by
    have hx := build_tokens x (.arr [] :: fs) (itemTokens xs ++ ts)
    simp [tokens, build_openArr, hx, build_itemTokens xs x]
  | .obj ((k, v) :: ms), fs, ts => by
    have hv := build_tokens v (.obj [] k :: fs) (memberTokens ms ++ ts)
    simp [tokens, build, hv, build_memberTokens ms k v]

theorem build_itemTokens : ∀ (xs : List Json) (v : Json) (done : List Json) (fs : List Frame) (ts : List Token),
    build (.after v) (.arr done :: fs) (itemTokens xs ++ ts) =
      build (.after (.arr (done.reverse ++ v :: xs))) fs ts
  | [], v, done, fs, ts => by simp [itemTokens, build]
  | x :: xs, v, done, fs, ts => by
    have hx := build_tokens x (.arr (v :: done) :: fs) (itemTokens xs ++ ts)
    simp [itemTokens, build, hx, build_itemTokens xs x]

theorem build_memberTokens : ∀ (ms : List (Option String × Json)) (k : Option String) (v : Json)
    (done : List (Option String × Json)) (fs : List Frame) (ts : List Token),
    build (.after v) (.obj done k :: fs) (memberTokens ms ++ ts) =
      build (.after (.obj (done.reverse ++ (k, v) :: ms))) fs ts
  | [], k, v, done, fs, ts => by simp [memberTokens, build]
  | (k', x) :: ms, k, v, done, fs, ts => by
    have hx := build_tokens x (.obj ((k, v) :: done) k' :: fs) (memberTokens ms ++ ts)
    simp [memberTokens, build, hx, build_memberTokens ms k' x]
end

/-- Every value is read back from the text that is written for it. -/
theorem read?_compact (j : Json) : read? j.compact = some j := by
  have h := build_tokens j [] []
  simp only [List.append_nil] at h
  simp [read?, compact, tokens?_chars, h, build]

end PointsTo.Json
