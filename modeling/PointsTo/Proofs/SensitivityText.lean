import Mathlib.Data.List.TakeDrop
import Mathlib.Data.List.TakeWhile
import Mathlib.Data.Nat.Digits.Defs
import PointsTo.Config.Sensitivity

/-!
# How sensitivities are written

A text is read as a sensitivity exactly if it is `ci`, or a depth, a hyphen and
a word for the kind, with blanks around it. A depth that is too small or too
large is told from a text of another form, and a depth of `2 ^ 64` or more is
no depth at all. What was read is written in a form that reads back to it.
-/

namespace PointsTo

/-! ## Blanks -/

namespace Text

structure Strips (cs t : List Char) : Prop where
  around : ∃ before after, cs = before ++ t ++ after ∧ (∀ c ∈ before, isBlank c = true) ∧
    ∀ c ∈ after, isBlank c = true
  head : ∀ c ∈ t.head?, isBlank c = false
  last : ∀ c ∈ t.getLast?, isBlank c = false

theorem trimLeft_eq_self {cs : List Char} (h : ∀ c ∈ cs.head?, isBlank c = false) : trimLeft cs = cs := by
  cases cs with
  | nil => rfl
  | cons c cs => simp [trimLeft, h c rfl]

theorem head?_trimLeft (cs : List Char) : ∀ c ∈ (trimLeft cs).head?, isBlank c = false := by
  induction cs with
  | nil => simp [trimLeft]
  | cons c cs ih =>
    by_cases h : isBlank c = true
    · simpa [trimLeft, h] using ih
    · simp [trimLeft, h]

theorem exists_trimLeft (cs : List Char) : ∃ before, cs = before ++ trimLeft cs ∧
    ∀ c ∈ before, isBlank c = true :=
  ⟨cs.takeWhile isBlank, List.takeWhile_append_dropWhile.symm, fun _ => List.mem_takeWhile_imp⟩

theorem trim_eq_self {cs : List Char} (hhead : ∀ c ∈ cs.head?, isBlank c = false)
    (hlast : ∀ c ∈ cs.getLast?, isBlank c = false) : trim cs = cs := by
  rw [trim, trimLeft_eq_self hhead, trimLeft_eq_self (by simpa using hlast), List.reverse_reverse]

theorem strips_trim (cs : List Char) : Strips cs (trim cs) := by
  obtain ⟨before, hbefore, hb⟩ := exists_trimLeft cs
  obtain ⟨after, hafter, ha⟩ := exists_trimLeft (trimLeft cs).reverse
  have hleft : trimLeft cs = trim cs ++ after.reverse := by
    rw [trim, ← List.reverse_append, ← hafter, List.reverse_reverse]
  refine ⟨⟨before, after.reverse, ?_, hb, by simpa using ha⟩, fun c hc => ?_, fun c hc => ?_⟩
  · rw [List.append_assoc, ← hleft]; exact hbefore
  · refine head?_trimLeft cs c ?_
    rw [hleft, List.head?_append]
    simp [Option.mem_def.mp hc]
  · refine head?_trimLeft (trimLeft cs).reverse c ?_
    simpa [trim] using hc

end Text

/-! ## The form -/

def SelectorKind.words : SelectorKind → List String
  | .object => ["obj", "object"]
  | .callSite => ["call", "cfa"]
  | .type => ["type"]
  | .hybrid => ["hybrid"]
  | .insensitive => []

theorem SelectorKind.ofShort?_eq_some {word : String} {kind : SelectorKind} :
    ofShort? word = some kind ↔ word ∈ kind.words := by
  unfold ofShort?
  split <;> cases kind <;> simp_all [words]

namespace Sensitivity

def value (digits : List Char) : Nat := Nat.ofDigits 10 (digits.reverse.map fun d => d.toNat - '0'.toNat)

/-- Digits of value `k`, after at most one plus sign. -/
def Numeral (k : Nat) (cs : List Char) : Prop :=
  ∃ sign digits, cs = sign ++ digits ∧ (sign = [] ∨ sign = ['+']) ∧ digits ≠ [] ∧
    (∀ d ∈ digits, d.isDigit = true) ∧ value digits = k

/-- A depth, a hyphen and a word for the kind, in letters of any case. -/
def Written (kind : SelectorKind) (k : Nat) (cs : List Char) : Prop :=
  ∃ depth letters, cs = depth ++ '-' :: letters ∧ Numeral k depth ∧
    String.ofList (Text.lower letters) ∈ kind.words

theorem foldl_eq_value (digits : List Char) :
    digits.foldl (fun n d => 10 * n + (d.toNat - '0'.toNat)) 0 = value digits := by
  unfold value
  rw [List.foldl_eq_foldr_reverse, Nat.ofDigits_eq_foldr, List.foldr_map]
  simp [Nat.add_comm]

def natural? (digits : List Char) : Option Nat :=
  if digits ≠ [] ∧ digits.all Char.isDigit then
    if value digits < 2 ^ 64 then some (value digits) else none
  else none

section
variable {k : Nat} {cs : List Char}

theorem depth?_plus (digits : List Char) : depth? ('+' :: digits) = natural? digits := by
  simp only [depth?, natural?, foldl_eq_value]
  rfl

theorem depth?_of_head (h : cs.head? ≠ some '+') : depth? cs = natural? cs := by
  have hskip : depth? cs = depth? ('+' :: cs) := by
    cases cs with
    | nil => rfl
    | cons c cs =>
      have hc : c ≠ '+' := by simpa using h
      simp [depth?, hc]
  rw [hskip, depth?_plus]

theorem natural?_eq_some {digits : List Char} : natural? digits = some k ↔
    digits ≠ [] ∧ (∀ d ∈ digits, d.isDigit = true) ∧ value digits = k ∧ k < 2 ^ 64 := by
  unfold natural?
  rw [← List.all_eq_true]
  by_cases hd : digits ≠ [] ∧ digits.all Char.isDigit = true
  · by_cases hk : value digits < 2 ^ 64
    · rw [if_pos hd, if_pos hk, Option.some.injEq]
      exact ⟨fun h => ⟨hd.1, hd.2, h, h ▸ hk⟩, fun h => h.2.2.1⟩
    · rw [if_pos hd, if_neg hk]
      exact ⟨nofun, fun h => absurd (h.2.2.1 ▸ h.2.2.2) hk⟩
  · rw [if_neg hd]
    exact ⟨nofun, fun h => absurd ⟨h.1, h.2.1⟩ hd⟩

theorem head?_digits {digits : List Char} (hd : ∀ d ∈ digits, d.isDigit = true) {c : Char}
    (hc : c.isDigit = false) : digits.head? ≠ some c := by
  intro h
  simp [hd c (List.mem_of_head? h)] at hc

theorem depth?_eq_some : depth? cs = some k ↔ Numeral k cs ∧ k < 2 ^ 64 := by
  constructor
  · intro h
    by_cases hplus : cs.head? = some '+'
    · obtain ⟨digits, rfl⟩ := List.head?_eq_some_iff.mp hplus
      obtain ⟨hne, hd, hv, hk⟩ := natural?_eq_some.mp (depth?_plus digits ▸ h)
      exact ⟨⟨['+'], digits, rfl, Or.inr rfl, hne, hd, hv⟩, hk⟩
    · obtain ⟨hne, hd, hv, hk⟩ := natural?_eq_some.mp (depth?_of_head hplus ▸ h)
      exact ⟨⟨[], cs, rfl, Or.inl rfl, hne, hd, hv⟩, hk⟩
  · rintro ⟨⟨sign, digits, rfl, rfl | rfl, hne, hd, hv⟩, hk⟩
    · rw [List.nil_append, depth?_of_head (head?_digits hd rfl)]
      exact natural?_eq_some.mpr ⟨hne, hd, hv, hk⟩
    · rw [List.singleton_append, depth?_plus]
      exact natural?_eq_some.mpr ⟨hne, hd, hv, hk⟩

theorem Numeral.ne_nil (h : Numeral k cs) : cs ≠ [] := by
  obtain ⟨sign, digits, rfl, _, hne, _⟩ := h
  simp [hne]

/-- A numeral holds digits and a plus sign at most. -/
theorem Numeral.not_mem (h : Numeral k cs) {c : Char} (hplus : c ≠ '+') (hc : c.isDigit = false) : c ∉ cs := by
  obtain ⟨sign, digits, rfl, hs, _, hd, _⟩ := h
  intro hmem
  rcases List.mem_append.mp hmem with hmem | hmem
  · rcases hs with rfl | rfl <;> simp_all
  · simp [hd c hmem] at hc

/-! ## Reading it -/

theorem forall_ne_dash {cs : List Char} (h : '-' ∉ cs) : ∀ c ∈ cs, decide (c ≠ '-') = true :=
  fun _ hc => decide_eq_true fun he => h (he ▸ hc)

/-- The first hyphen parts the depth from the kind. -/
theorem span_append {depth letters : List Char} (h : '-' ∉ depth) :
    (depth ++ '-' :: letters).span (· ≠ '-') = (depth, '-' :: letters) := by
  have hall := forall_ne_dash h
  rw [List.span_eq_takeWhile_dropWhile, List.takeWhile_append_of_pos hall, List.dropWhile_append_of_pos hall]
  simp

theorem ofTrimmed_of_not_mem (h : '-' ∉ cs) : ofTrimmed cs = .error .noSeparator := by
  have hall := forall_ne_dash h
  have hspan : cs.span (· ≠ '-') = (cs, []) := by
    rw [List.span_eq_takeWhile_dropWhile, List.takeWhile_eq_self_iff.mpr hall, List.dropWhile_eq_nil_iff.mpr hall]
  unfold ofTrimmed
  rw [if_neg fun hhead => h (List.mem_of_head? hhead), hspan]

theorem ofTrimmed_append {depth letters : List Char} (hne : depth ≠ []) (h : '-' ∉ depth) :
    ofTrimmed (depth ++ '-' :: letters) =
      ((depth? depth).elim (.error .depthNotANumber) fun k =>
        (SelectorKind.ofShort? (String.ofList (Text.lower letters))).elim
          (.error (.unknownKind (String.ofList (Text.lower letters)))) fun kind => .ok ⟨kind, k⟩) := by
  have hhead : (depth ++ '-' :: letters).head? ≠ some '-' := by
    cases depth with
    | nil => exact absurd rfl hne
    | cons c cs =>
      rintro ⟨⟩
      exact h List.mem_cons_self
  unfold ofTrimmed
  rw [if_neg hhead, span_append h]
  dsimp only
  cases depth? depth with
  | none => rfl
  | some k => cases SelectorKind.ofShort? (String.ofList (Text.lower letters)) <;> rfl

theorem ofTrimmed_eq_ok {v : Sensitivity} :
    ofTrimmed cs = .ok v ↔ Written v.kind v.depth cs ∧ v.depth < 2 ^ 64 := by
  constructor
  · intro h
    by_cases hdash : '-' ∈ cs
    · obtain ⟨depth, letters, rfl, hdepth⟩ := List.eq_append_cons_of_mem hdash
      have hne : depth ≠ [] := by
        rintro rfl
        simp [ofTrimmed] at h
      rw [ofTrimmed_append hne hdepth] at h
      cases hk : depth? depth with
      | none => simp [hk] at h
      | some k =>
        cases hkind : SelectorKind.ofShort? (String.ofList (Text.lower letters)) with
        | none => simp [hk, hkind] at h
        | some kind =>
          obtain rfl : ⟨kind, k⟩ = v := by simpa [hk, hkind] using h
          obtain ⟨hnum, hlt⟩ := depth?_eq_some.mp hk
          exact ⟨⟨depth, letters, rfl, hnum, SelectorKind.ofShort?_eq_some.mp hkind⟩, hlt⟩
    · rw [ofTrimmed_of_not_mem hdash] at h
      cases h
  · rintro ⟨⟨depth, letters, rfl, hnum, hword⟩, hlt⟩
    have hk := depth?_eq_some.mpr ⟨hnum, hlt⟩
    rw [ofTrimmed_append hnum.ne_nil (hnum.not_mem (by decide) rfl), hk,
      SelectorKind.ofShort?_eq_some.mpr hword]
    rfl

theorem Written.not_ci {kind : SelectorKind} (h : Written kind k cs) : Text.lower cs ≠ ['c', 'i'] := by
  obtain ⟨depth, letters, rfl, _⟩ := h
  intro hci
  have hdash : '-' ∈ Text.lower (depth ++ '-' :: letters) := by simp [Text.lower]
  rw [hci] at hdash
  exact absurd hdash (by decide)

theorem Written.sensitive {kind : SelectorKind} (h : Written kind k cs) : kind ≠ .insensitive := by
  obtain ⟨_, _, _, _, hword⟩ := h
  rintro rfl
  cases hword

theorem check_sensitive {kind : SelectorKind} (h : kind ≠ .insensitive) (k : Nat) :
    check ⟨kind, k⟩ = if 1 ≤ k ∧ k ≤ 8 then .ok () else .error (.depthOutOfRange k 1 8) := by
  cases kind with
  | insensitive => exact absurd rfl h
  | _ => rfl

section
variable {s : String} {kind : SelectorKind}

theorem parse_of_ci (h : Text.lower (Text.trim s.toList) = ['c', 'i']) : parse s = .ok insensitive :=
  if_pos h

theorem parse_of_written (h : Written kind k (Text.trim s.toList)) (hk : k < 2 ^ 64) :
    parse s = if 1 ≤ k ∧ k ≤ 8 then .ok ⟨kind, k⟩ else .error (.depthOutOfRange k 1 8) := by
  have hread : ofTrimmed (Text.trim s.toList) = .ok ⟨kind, k⟩ := ofTrimmed_eq_ok.mpr ⟨h, hk⟩
  unfold parse
  dsimp only
  rw [if_neg h.not_ci, hread]
  dsimp only
  rw [check_sensitive h.sensitive]
  split <;> rfl

theorem parse_of_other (hci : Text.lower (Text.trim s.toList) ≠ ['c', 'i'])
    (h : ∀ kind k, Written kind k (Text.trim s.toList) → 2 ^ 64 ≤ k) :
    ∃ fault, parse s = .error (.invalidSensitivity s fault) := by
  unfold parse
  dsimp only
  rw [if_neg hci]
  cases hread : ofTrimmed (Text.trim s.toList) with
  | error fault => exact ⟨fault, rfl⟩
  | ok v =>
    obtain ⟨hw, hk⟩ := ofTrimmed_eq_ok.mp hread
    exact absurd (h _ _ hw) (Nat.not_le_of_lt hk)

/-- The three ways that reading goes. -/
theorem parse_cases (s : String) :
    Text.lower (Text.trim s.toList) = ['c', 'i'] ∨
    (∃ kind k, Written kind k (Text.trim s.toList) ∧ k < 2 ^ 64) ∨
    Text.lower (Text.trim s.toList) ≠ ['c', 'i'] ∧
      ∀ kind k, Written kind k (Text.trim s.toList) → 2 ^ 64 ≤ k := by
  by_cases hci : Text.lower (Text.trim s.toList) = ['c', 'i']
  · exact Or.inl hci
  · by_cases hw : ∃ kind k, Written kind k (Text.trim s.toList) ∧ k < 2 ^ 64
    · exact Or.inr (Or.inl hw)
    · refine Or.inr (Or.inr ⟨hci, fun kind k h => Nat.le_of_not_lt fun hk => hw ⟨kind, k, h, hk⟩⟩)

theorem parse_eq_ok {v : Sensitivity} : parse s = .ok v ↔
    v = insensitive ∧ Text.lower (Text.trim s.toList) = ['c', 'i'] ∨
    Written v.kind v.depth (Text.trim s.toList) ∧ 1 ≤ v.depth ∧ v.depth ≤ 8 := by
  constructor
  · intro h
    rcases parse_cases s with hci | ⟨kind, k, hw, hk⟩ | ⟨hci, hother⟩
    · rw [parse_of_ci hci] at h
      exact Or.inl ⟨(Except.ok.inj h).symm, hci⟩
    · rw [parse_of_written hw hk] at h
      by_cases hr : 1 ≤ k ∧ k ≤ 8
      · rw [if_pos hr] at h
        cases Except.ok.inj h
        exact Or.inr ⟨hw, hr⟩
      · rw [if_neg hr] at h; cases h
    · obtain ⟨fault, hf⟩ := parse_of_other hci hother
      rw [hf] at h; cases h
  · rintro (⟨rfl, hci⟩ | ⟨hw, hr⟩)
    · exact parse_of_ci hci
    · rw [parse_of_written hw (by omega), if_pos hr]

theorem parse_eq_outOfRange {low high : Nat} : parse s = .error (.depthOutOfRange k low high) ↔
    low = 1 ∧ high = 8 ∧ ∃ kind, Written kind k (Text.trim s.toList) ∧ (k = 0 ∨ 9 ≤ k) ∧ k < 2 ^ 64 := by
  constructor
  · intro h
    rcases parse_cases s with hci | ⟨kind, k', hw, hk⟩ | ⟨hci, hother⟩
    · rw [parse_of_ci hci] at h; cases h
    · rw [parse_of_written hw hk] at h
      by_cases hr : 1 ≤ k' ∧ k' ≤ 8
      · rw [if_pos hr] at h; cases h
      · rw [if_neg hr] at h
        cases h
        exact ⟨rfl, rfl, kind, hw, by omega, hk⟩
    · obtain ⟨fault, hf⟩ := parse_of_other hci hother
      rw [hf] at h; cases h
  · rintro ⟨rfl, rfl, kind, hw, hr, hk⟩
    rw [parse_of_written hw hk, if_neg (by omega)]

theorem parse_eq_invalid : (∃ fault, parse s = .error (.invalidSensitivity s fault)) ↔
    Text.lower (Text.trim s.toList) ≠ ['c', 'i'] ∧
      ∀ kind k, Written kind k (Text.trim s.toList) → 2 ^ 64 ≤ k := by
  constructor
  · rintro ⟨fault, h⟩
    refine ⟨fun hci => ?_, fun kind k hw => Nat.le_of_not_lt fun hk => ?_⟩
    · rw [parse_of_ci hci] at h; cases h
    · rw [parse_of_written hw hk] at h
      split at h <;> cases h
  · rintro ⟨hci, h⟩
    exact parse_of_other hci h

end

/-! ## Writing it -/

theorem isBlank_of_isDigit {c : Char} (h : c.isDigit = true) : Text.isBlank c = false := by
  have hc : 48 ≤ c.toNat ∧ c.toNat ≤ 57 := by
    simpa [Char.isDigit, UInt32.le_iff_toNat_le] using h
  simp [Text.isBlank, Text.blankRanges]
  omega

theorem toList_text {kind : SelectorKind} (h : kind ≠ .insensitive) (k : Nat) :
    (text ⟨kind, k⟩).toList = Nat.toDigits 10 k ++ '-' :: kind.short.toList := by
  have htext : text ⟨kind, k⟩ = k.repr ++ "-" ++ kind.short := by
    cases kind with
    | insensitive => exact absurd rfl h
    | _ => rfl
  simp [htext]

theorem numeral_toDigits (k : Nat) : Numeral k (Nat.toDigits 10 k) := by
  refine ⟨[], Nat.toDigits 10 k, rfl, Or.inl rfl, Nat.toDigits_ne_nil, fun d hd => ?_, ?_⟩
  · exact Nat.isDigit_of_mem_toDigits (by decide) (by decide) hd
  · rw [← foldl_eq_value]
    exact Nat.ofDigitChars_ten_toDigits

theorem written_text {kind : SelectorKind} (h : kind ≠ .insensitive) (k : Nat) :
    Written kind k (text ⟨kind, k⟩).toList := by
  refine ⟨_, _, toList_text h k, numeral_toDigits k, ?_⟩
  cases kind with
  | insensitive => exact absurd rfl h
  | _ => decide

theorem last_short (kind : SelectorKind) : ∀ c ∈ ('-' :: kind.short.toList).getLast?, Text.isBlank c = false := by
  intro c hc
  cases kind <;> cases hc <;> rfl

theorem trim_text {kind : SelectorKind} (h : kind ≠ .insensitive) (k : Nat) :
    Text.trim (text ⟨kind, k⟩).toList = (text ⟨kind, k⟩).toList := by
  rw [toList_text h k]
  refine Text.trim_eq_self (fun c hc => ?_) fun c hc => ?_
  · have hd : c ∈ Nat.toDigits 10 k := by
      cases hds : Nat.toDigits 10 k with
      | nil => exact absurd hds Nat.toDigits_ne_nil
      | cons d ds => simp_all
    exact isBlank_of_isDigit (Nat.isDigit_of_mem_toDigits (by decide) (by decide) hd)
  · refine last_short kind c ?_
    rwa [List.getLast?_append, List.getLast?_cons, Option.some_or, ← List.getLast?_cons] at hc

theorem parse_text {kind : SelectorKind} (h : kind ≠ .insensitive) {k : Nat} (hk : 1 ≤ k ∧ k ≤ 8) :
    parse (text ⟨kind, k⟩) = .ok ⟨kind, k⟩ := by
  refine parse_eq_ok.mpr (Or.inr ⟨?_, hk⟩)
  rw [trim_text h k]
  exact written_text h k

/-- **Sensitivities are read by their form.** Without the blanks around it, a text is read as
insensitive if it is `ci`, and as a kind and a depth if it has their form and the depth is from 1 to 8.
Of this form, a depth out of range is reported as such; all else, a depth of `2 ^ 64` or more included, is
reported as invalid with the whole text. What was read is in order, and is read again from its text. -/
theorem parse_exact (s : String) :
    Text.Strips s.toList (Text.trim s.toList) ∧
    (∀ v, parse s = .ok v ↔
      v = insensitive ∧ Text.lower (Text.trim s.toList) = ['c', 'i'] ∨
      Written v.kind v.depth (Text.trim s.toList) ∧ 1 ≤ v.depth ∧ v.depth ≤ 8) ∧
    (∀ k low high, parse s = .error (.depthOutOfRange k low high) ↔ low = 1 ∧ high = 8 ∧
      ∃ kind, Written kind k (Text.trim s.toList) ∧ (k = 0 ∨ 9 ≤ k) ∧ k < 2 ^ 64) ∧
    ((∃ fault, parse s = .error (.invalidSensitivity s fault)) ↔
      Text.lower (Text.trim s.toList) ≠ ['c', 'i'] ∧
        ∀ kind k, Written kind k (Text.trim s.toList) → 2 ^ 64 ≤ k) ∧
    ∀ v, parse s = .ok v → v.check = .ok () ∧ parse v.text = .ok v := by
  refine ⟨Text.strips_trim _, fun _ => parse_eq_ok, fun _ _ _ => parse_eq_outOfRange, parse_eq_invalid,
    fun v hv => ?_⟩
  rcases parse_eq_ok.mp hv with ⟨rfl, _⟩ | ⟨hw, hr⟩
  · exact ⟨rfl, parse_of_ci rfl⟩
  · exact ⟨(check_sensitive hw.sensitive _).trans (if_pos hr), parse_text hw.sensitive hr⟩

example : parse "\u2003+08-CFA\n" = .ok ⟨.callSite, 8⟩ := by decide

example : parse "18446744073709551616-obj" =
    .error (.invalidSensitivity "18446744073709551616-obj" .depthNotANumber) := by decide

end

end Sensitivity

end PointsTo
