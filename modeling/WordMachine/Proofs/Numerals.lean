import Mathlib.Data.List.Forall2
import Mathlib.Data.Nat.Digits.Defs
import WordMachine.CommandLine.Session

/-!
# Numerals

The grammar of the numbers on the command line, and that exactly its numerals with a value below
`2^64` are read. The value is compared with the limit digit by digit while it is read; since it
never gets smaller, a numeral is refused for its size only if its whole value is too large, however
many zeros it begins with.

* `digit_eq_some_iff`, `digits_eq_ok_iff`, `unsigned_eq_ok_iff`: what is read as a digit, as digits
  behind others, and as digits with or without a sign.
* `parse_eq_ok_iff`: what is read as a number.
* `number_reads`: the number that a text stands for, and the failure that reports any other text.
-/

namespace WordMachine.CommandLine

/-! ## The grammar -/

/-- A character is the digit of a base with the given value; letters may be of either case. -/
def DigitOf (base : Nat) (c : Char) (value : Nat) : Prop :=
  value < base ∧ (c = value.digitChar ∨ c = value.digitChar.toUpper)

/-- One or more digits of a base, the first one with the highest value. -/
def DigitsOf (base : Nat) (text : List Char) (n : Nat) : Prop :=
  text ≠ [] ∧ ∃ values, List.Forall₂ (DigitOf base) text values ∧ n = Nat.ofDigits base values.reverse

/-- Digits, perhaps behind a plus sign. -/
def UnsignedOf (base : Nat) (text : List Char) (n : Nat) : Prop :=
  DigitsOf base text n ∨ ∃ rest, text = '+' :: rest ∧ DigitsOf base rest n

/-- A text begins as the hexadecimal numerals do. -/
def Prefixed (text : String) : Prop := ['0', 'x'] <+: text.toList ∨ ['0', 'X'] <+: text.toList

/-- A text is a numeral with the given value. -/
inductive Numeral (text : String) (n : Nat) : Prop
  | hexadecimal {x : Char} {rest : List Char} (hx : x = 'x' ∨ x = 'X')
      (htext : text.toList = '0' :: x :: rest) (hrest : UnsignedOf 16 rest n)
  | decimal (hplain : ¬Prefixed text) (htext : UnsignedOf 10 text.toList n)

namespace Number

/-! ## Digits -/

/-- A character between two others is some places behind the first one. -/
theorem exists_ofNat_of_le {first last c : Char} (hfirst : first ≤ c) (hlast : c ≤ last) :
    ∃ i ≤ last.toNat - first.toNat, c.toNat = first.toNat + i ∧ c = Char.ofNat (first.toNat + i) := by
  have hle : first.toNat ≤ c.toNat := UInt32.le_iff_toNat_le.mp hfirst
  have hge : c.toNat ≤ last.toNat := UInt32.le_iff_toNat_le.mp hlast
  have hc : c.toNat = first.toNat + (c.toNat - first.toNat) := by omega
  exact ⟨c.toNat - first.toNat, by omega, hc, by rw [← hc, Char.ofNat_toNat]⟩

theorem digitOf_of_digit {base : Nat} {c : Char} {value : Nat} (h : digit base c = some value) :
    DigitOf base c value := by
  have hdecimal : ∀ i ≤ '9'.toNat - '0'.toNat, Char.ofNat ('0'.toNat + i) = i.digitChar := by decide
  have hlower : ∀ i ≤ 'f'.toNat - 'a'.toNat, Char.ofNat ('a'.toNat + i) = (i + 10).digitChar := by
    decide
  have hupper : ∀ i ≤ 'F'.toNat - 'A'.toNat,
      Char.ofNat ('A'.toNat + i) = (i + 10).digitChar.toUpper := by decide
  simp only [digit, Option.ite_none_right_eq_some, Option.some.injEq] at h
  obtain ⟨hlt, hvalue⟩ := h
  rw [hvalue] at hlt
  refine ⟨hlt, ?_⟩
  split at hvalue
  next hc =>
    obtain ⟨i, hi, hnat, hchar⟩ := exists_ofNat_of_le hc.1 hc.2
    obtain rfl : i = value := by omega
    exact Or.inl (hchar.trans (hdecimal i hi))
  next =>
    split at hvalue
    next hc =>
      obtain ⟨i, hi, hnat, hchar⟩ := exists_ofNat_of_le hc.1 hc.2
      obtain rfl : i + 10 = value := by omega
      exact Or.inl (hchar.trans (hlower i hi))
    next =>
      split at hvalue
      next hc =>
        obtain ⟨i, hi, hnat, hchar⟩ := exists_ofNat_of_le hc.1 hc.2
        obtain rfl : i + 10 = value := by omega
        exact Or.inr (hchar.trans (hupper i hi))
      next => omega

/-- The digits of a base up to sixteen are the characters that are read as digits. -/
theorem digit_eq_some_iff {base : Nat} (hbase : base ≤ 16) {c : Char} {value : Nat} :
    digit base c = some value ↔ DigitOf base c value := by
  have hread : ∀ base ≤ 16, ∀ value < base, digit base value.digitChar = some value ∧
      digit base value.digitChar.toUpper = some value := by decide
  constructor
  · exact digitOf_of_digit
  · rintro ⟨hlt, rfl | rfl⟩
    · exact (hread base hbase value hlt).1
    · exact (hread base hbase value hlt).2

/-- The value of digits that are read behind others. It is at least that of the others. -/
def total (base value : Nat) (values : List Nat) : Nat :=
  values.foldl (fun total d => total * base + d) value

theorem le_total {base : Nat} (hbase : 0 < base) (value : Nat) (values : List Nat) :
    value ≤ total base value values := by
  induction values generalizing value with
  | nil => exact Nat.le_refl value
  | cons d values ih =>
    calc value ≤ value * base := Nat.le_mul_of_pos_right value hbase
      _ ≤ value * base + d := Nat.le_add_right _ d
      _ ≤ total base (value * base + d) values := ih _

theorem total_zero (base : Nat) (values : List Nat) :
    total base 0 values = Nat.ofDigits base values.reverse := by
  rw [Nat.ofDigits_eq_foldr, List.foldr_reverse, total]
  congr 1
  funext total d
  exact (Nat.add_comm _ d).trans (congrArg _ (Nat.mul_comm total base))

/-- Digits are read behind others if all of them together stay below the limit. -/
theorem digits_eq_ok_iff {base : Nat} (hbase : base ≤ 16) (hpos : 0 < base) {text : List Char}
    {value n : Nat} (hvalue : value < limit) :
    digits base value text = .ok n ↔
      ∃ values, List.Forall₂ (DigitOf base) text values ∧ n = total base value values ∧ n < limit := by
  induction text generalizing value with
  | nil =>
    simp only [digits, List.forall₂_nil_left_iff, exists_eq_left, Except.ok.injEq]
    constructor
    · rintro rfl
      exact ⟨rfl, hvalue⟩
    · rintro ⟨rfl, -⟩
      rfl
  | cons c text ih =>
    simp only [digits, List.forall₂_cons_left_iff]
    cases hc : digit base c with
    | none =>
      refine ⟨nofun, ?_⟩
      rintro ⟨_, ⟨d, values, hd, -, rfl⟩, -⟩
      rw [(digit_eq_some_iff hbase).mpr hd] at hc
      cases hc
    | some d =>
      have hd := (digit_eq_some_iff hbase).mp hc
      dsimp only
      split
      next hlt =>
        rw [ih hlt]
        constructor
        · rintro ⟨values, hvalues, hn⟩
          exact ⟨d :: values, ⟨d, values, hd, hvalues, rfl⟩, hn⟩
        · rintro ⟨_, ⟨d', values, hd', hvalues, rfl⟩, hn⟩
          obtain rfl : d' = d := Option.some.inj (((digit_eq_some_iff hbase).mpr hd').symm.trans hc)
          exact ⟨values, hvalues, hn⟩
      next hlt =>
        refine ⟨nofun, ?_⟩
        -- more digits make no number smaller, so one that is too large already stays so
        rintro ⟨_, ⟨d', values, hd', hvalues, rfl⟩, rfl, hn⟩
        obtain rfl : d' = d := Option.some.inj (((digit_eq_some_iff hbase).mpr hd').symm.trans hc)
        exact absurd (Nat.lt_of_le_of_lt (le_total hpos _ values) hn) hlt

/-- One or more digits are read behind nothing. -/
theorem digits_zero_eq_ok_iff {base : Nat} (hbase : base ≤ 16) (hpos : 0 < base) {text : List Char}
    (htext : text ≠ []) {n : Nat} :
    digits base 0 text = .ok n ↔ DigitsOf base text n ∧ n < limit := by
  rw [digits_eq_ok_iff hbase hpos (by decide)]
  simp only [total_zero]
  constructor
  · rintro ⟨values, hvalues, hn, hlt⟩
    exact ⟨⟨htext, values, hvalues, hn⟩, hlt⟩
  · rintro ⟨⟨-, values, hvalues, hn⟩, hlt⟩
    exact ⟨values, hvalues, hn, hlt⟩

/-! ## Signs and prefixes -/

theorem not_digitsOf_plus {base : Nat} (hbase : base ≤ 16) (rest : List Char) (n : Nat) :
    ¬DigitsOf base ('+' :: rest) n := by
  rintro ⟨-, values, hvalues, -⟩
  cases hvalues with
  | cons hplus _ =>
    have hread := (digit_eq_some_iff hbase).mpr hplus
    simp [digit] at hread

theorem unsignedOf_plus_iff {base : Nat} (hbase : base ≤ 16) {rest : List Char} {n : Nat} :
    UnsignedOf base ('+' :: rest) n ↔ DigitsOf base rest n := by
  constructor
  · rintro (h | ⟨rest', heq, h⟩)
    · exact absurd h (not_digitsOf_plus hbase rest n)
    · cases heq
      exact h
  · exact fun h => Or.inr ⟨rest, rfl, h⟩

theorem unsignedOf_of_not_plus {base : Nat} {text : List Char} (htext : ∀ rest, text ≠ '+' :: rest)
    {n : Nat} : UnsignedOf base text n ↔ DigitsOf base text n := by
  constructor
  · rintro (h | ⟨rest, heq, -⟩)
    · exact h
    · exact absurd heq (htext rest)
  · exact Or.inl

theorem unsigned_eq_ok_iff {base : Nat} (hbase : base ≤ 16) (hpos : 0 < base) {text : List Char}
    {n : Nat} : unsigned base text = .ok n ↔ UnsignedOf base text n ∧ n < limit := by
  have hnil : ¬DigitsOf base [] n := fun h => h.1 rfl
  unfold unsigned
  split
  next =>
    rw [@unsignedOf_of_not_plus base [] fun _ h => nomatch h]
    exact ⟨nofun, fun h => absurd h.1 hnil⟩
  next =>
    rw [unsignedOf_plus_iff hbase]
    exact ⟨nofun, fun h => absurd h.1 hnil⟩
  next rest hrest =>
    rw [unsignedOf_plus_iff hbase, digits_zero_eq_ok_iff hbase hpos fun h => hrest h]
  next text hne hlone hplus =>
    rw [unsignedOf_of_not_plus fun rest h => hplus rest h, digits_zero_eq_ok_iff hbase hpos hne]

theorem numeral_iff_of_prefixed {text : String} {x : Char} {rest : List Char} (hx : x = 'x' ∨ x = 'X')
    (htext : text.toList = '0' :: x :: rest) {n : Nat} :
    Numeral text n ↔ UnsignedOf 16 rest n := by
  constructor
  · rintro (@⟨_, _, -, htext', hrest⟩ | ⟨hplain, -⟩)
    · rw [htext] at htext'
      cases htext'
      exact hrest
    · refine absurd ?_ hplain
      rw [Prefixed, htext]
      rcases hx with rfl | rfl
      · exact Or.inl ⟨rest, rfl⟩
      · exact Or.inr ⟨rest, rfl⟩
  · exact .hexadecimal hx htext

theorem numeral_iff_of_not_prefixed {text : String} (h : ¬Prefixed text) {n : Nat} :
    Numeral text n ↔ UnsignedOf 10 text.toList n := by
  constructor
  · rintro (@⟨x, rest, hx, htext, -⟩ | ⟨-, htext⟩)
    · refine absurd ?_ h
      rw [Prefixed, htext]
      rcases hx with rfl | rfl
      · exact Or.inl ⟨rest, rfl⟩
      · exact Or.inr ⟨rest, rfl⟩
    · exact htext
  · exact .decimal h

/-- The numerals with a value below the limit are read, and no other text is. -/
theorem parse_eq_ok_iff {text : String} {n : Nat} :
    parse text = .ok n ↔ Numeral text n ∧ n < limit := by
  unfold parse
  split
  next rest htext =>
    rw [numeral_iff_of_prefixed (Or.inl rfl) htext, unsigned_eq_ok_iff (by decide) (by decide)]
  next rest htext =>
    rw [numeral_iff_of_prefixed (Or.inr rfl) htext, unsigned_eq_ok_iff (by decide) (by decide)]
  next hlower hupper =>
    have hplain : ¬Prefixed text := by
      rintro (⟨rest, htext⟩ | ⟨rest, htext⟩)
      · exact hlower rest htext.symm
      · exact hupper rest htext.symm
    rw [numeral_iff_of_not_prefixed hplain, unsigned_eq_ok_iff (by decide) (by decide)]

end Number

/-- Exactly the numerals with a value below `2^64` are read, each as its value. Every other text is
    reported. -/
theorem number_reads (text : String) :
    (∀ n, number text = .ok n ↔ Numeral text n ∧ n < 2 ^ 64) ∧
      ((¬∃ n, Numeral text n ∧ n < 2 ^ 64) ↔
        ∃ failure, number text = .error failure ∧
          failure.headline = "invalid number '" ++ text ++ "'") := by
  have hparse : ∀ n, Number.parse text = .ok n ↔ Numeral text n ∧ n < 2 ^ 64 :=
    fun n => Number.parse_eq_ok_iff
  simp only [← hparse, number]
  cases Number.parse text with
  | ok n => simp
  | error error =>
    have hheadline : (Failure.invalidNumber text error).headline = "invalid number '" ++ text ++ "'" :=
      rfl
    simp [hheadline]

/-- Zeros in front do not count, whatever the prefix and the sign. -/
example : number "0X+00000000000000000fF" = .ok 255 := by cbv

end WordMachine.CommandLine
