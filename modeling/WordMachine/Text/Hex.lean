import WordMachine.Word

/-!
# Hexadecimal text

Lower-case hexadecimal digits: a byte as two of them, a word as four, and any number as few as
it needs. The fixed-width forms keep leading zeros.

* `byte_injective`, `word_injective`: equal texts come from equal bytes and equal words.
* `fixed_eq_leftpad`: the digits of a fixed number are those of the number behind zeros.
-/

namespace WordMachine.Hex

/-- The `width` last hexadecimal digits of `n`, leading zeros included. -/
def fixed : (width n : Nat) → List Char
  | 0, _ => []
  | width + 1, n => fixed width (n / 16) ++ [(n % 16).digitChar]

theorem length_fixed (width n : Nat) : (fixed width n).length = width := by
  induction width generalizing n with
  | zero => rfl
  | succ width ih => simp [fixed, ih]

theorem digitChar_injective {a b : Nat} (ha : a < 16) (hb : b < 16)
    (h : a.digitChar = b.digitChar) : a = b := by
  have table : ∀ i < 16, ∀ j < 16, i.digitChar = j.digitChar → i = j := by decide
  exact table a ha b hb h

/-- The digits determine the part of a number that they can show. -/
theorem fixed_injective {width a b : Nat} (ha : a < Nat.pow 16 width) (hb : b < Nat.pow 16 width)
    (h : fixed width a = fixed width b) : a = b := by
  induction width generalizing a b with
  | zero => exact (Nat.lt_one_iff.mp ha).trans (Nat.lt_one_iff.mp hb).symm
  | succ width ih =>
    change _ < Nat.pow 16 width * 16 at ha hb
    obtain ⟨hd, hc⟩ := List.append_inj' h rfl
    have hq := ih (by omega) (by omega) hd
    have hr := digitChar_injective (Nat.mod_lt _ (by decide)) (Nat.mod_lt _ (by decide))
      (List.cons.inj hc).1
    omega

/-! ## Bytes, words and other numbers -/

/-- A byte as two digits. -/
def byte (b : Byte) : String := String.ofList (fixed 2 b.toNat)

/-- A word as four digits. -/
def word (w : Word) : String := String.ofList (fixed 4 w.toNat)

/-- A number without leading zeros. -/
def natural (n : Nat) : String := String.ofList (Nat.toDigits 16 n)

theorem byte_injective {a b : Byte} (h : byte a = byte b) : a = b :=
  UInt8.toNat_inj.mp (@fixed_injective 2 _ _ a.toNat_lt b.toNat_lt (String.ofList_injective h))

theorem word_injective {a b : Word} (h : word a = word b) : a = b :=
  UInt16.toNat_inj.mp (@fixed_injective 4 _ _ a.toNat_lt b.toNat_lt (String.ofList_injective h))

/-! ## Digits of the standard library -/

/-- The hexadecimal digits of a number, with zeros in front of them if they are fewer than `width`. -/
def padded (width n : Nat) : String := String.ofList ((Nat.toDigits 16 n).leftpad width '0')

/-- All digits of a number but the last one are those of its sixteenth part. -/
theorem toDigits_of_le {n : Nat} (h : 16 ≤ n) :
    Nat.toDigits 16 n = Nat.toDigits 16 (n / 16) ++ [(n % 16).digitChar] := by
  have hmod : n % 16 < 16 := Nat.mod_lt n (by decide)
  have hdigits := Nat.toDigits_append_toDigits (by decide) (Nat.div_pos h (by decide)) hmod
  rw [Nat.toDigits_of_lt_base hmod, Nat.div_add_mod] at hdigits
  exact hdigits.symm

theorem leftpad_concat (width : Nat) (digits : List Char) (c : Char) :
    (digits ++ [c]).leftpad (width + 1) '0' = digits.leftpad width '0' ++ [c] := by
  rw [List.leftpad, List.leftpad, List.length_append, List.length_singleton,
    Nat.add_sub_add_right, List.append_assoc]

/-- The digits of a fixed number are those of the number behind zeros. -/
theorem fixed_eq_leftpad {width n : Nat} (h : n < Nat.pow 16 (width + 1)) :
    fixed (width + 1) n = (Nat.toDigits 16 n).leftpad (width + 1) '0' := by
  induction width generalizing n with
  | zero =>
    have hn : n < 16 := h
    rw [Nat.toDigits_of_lt_base hn, fixed, Nat.mod_eq_of_lt hn]
    rfl
  | succ width ih =>
    change n < Nat.pow 16 (width + 1) * 16 at h
    rw [fixed, ih (Nat.div_lt_of_lt_mul (Nat.mul_comm _ 16 ▸ h))]
    rcases Nat.lt_or_ge n 16 with hn | hn
    · -- nothing is left in front of the last digit, where the fixed form has one more zero
      have hzeros : ['0'].leftpad (width + 1) '0' = [].leftpad (width + 1) '0' := by
        simp [List.leftpad, ← List.replicate_succ']
      rw [Nat.div_eq_of_lt hn, Nat.mod_eq_of_lt hn, Nat.toDigits_of_lt_base hn,
        ← List.nil_append [n.digitChar], leftpad_concat, ← hzeros]
      rfl
    · rw [toDigits_of_le hn, leftpad_concat]

theorem byte_eq (b : Byte) : byte b = padded 2 b.toNat :=
  congrArg String.ofList (fixed_eq_leftpad b.toNat_lt)

theorem word_eq (w : Word) : word w = padded 4 w.toNat :=
  congrArg String.ofList (fixed_eq_leftpad w.toNat_lt)

theorem natural_eq (n : Nat) : natural n = padded 0 n := by
  rw [natural, padded, List.leftpad, Nat.zero_sub]
  rfl

end WordMachine.Hex
