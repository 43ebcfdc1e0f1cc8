import WordMachine.Register

/-!
# The register file

The values of the registers are held as 24 bytes, two for each register at its offset, the high
byte first.

* `get_set`: a register holds the value last written to it, whatever was written to the others.
* `ext_get`: the values of the registers are all there is.
-/

namespace WordMachine

/-- The bytes that hold the values of the registers. -/
structure RegisterFile where
  bytes : Vector Byte (2 * Register.count)
deriving DecidableEq, Repr

namespace RegisterFile

/-- The value of a register. -/
def get (file : RegisterFile) (r : Register) : Word :=
  have := r.offset_lt
  Word.ofBytes file.bytes[r.offset] file.bytes[r.offset + 1]

/-- The register file after a value is written to a register. -/
def set (file : RegisterFile) (r : Register) (value : Word) : RegisterFile :=
  have := r.offset_lt
  ⟨(file.bytes.set r.offset (Word.high value)).set (r.offset + 1) (Word.low value)⟩

/-- The stack grows down from the last word of the address space. -/
def stackTop : Word := 0xfffe

/-- The register file after a reset: the stack is empty and all else is zero. -/
def initial : RegisterFile :=
  ((⟨Vector.replicate _ 0⟩ : RegisterFile).set .sp stackTop).set .fp stackTop

/-- One line for each register in order, with its name and its value. -/
def dump (file : RegisterFile) : String :=
  String.join (Register.all.toList.map fun r => r.name ++ ": 0x" ++ Hex.word (file.get r) ++ "\n")

theorem get_set (file : RegisterFile) (r s : Register) (value : Word) :
    (file.set r value).get s = if r = s then value else file.get s := by
  by_cases h : r = s
  · subst h
    simp [get, set]
  · have hne : r.index ≠ s.index := fun e => h (Register.index_injective e)
    simp only [get, set, Vector.getElem_set, Register.offset, h, if_false]
    rw [if_neg (by omega), if_neg (by omega), if_neg (by omega), if_neg (by omega)]

theorem get_initial (r : Register) :
    initial.get r = if r = .sp ∨ r = .fp then stackTop else 0 := by
  unfold initial
  rw [get_set, get_set]
  cases r <;> simp [get] <;> rfl

theorem ext_get {file other : RegisterFile} (h : ∀ r, file.get r = other.get r) :
    file = other := by
  obtain ⟨bytes⟩ := file
  obtain ⟨bytes'⟩ := other
  congr 1
  apply Vector.ext
  intro i hi
  have hr : i / 2 < Register.count := by
    simp only [Register.count] at hi ⊢
    omega
  obtain ⟨r, hri⟩ := Register.exists_index hr
  have hget := h r
  simp only [get, Register.offset, hri] at hget
  have hhigh := congrArg Word.high hget
  have hlow := congrArg Word.low hget
  rw [Word.high_ofBytes, Word.high_ofBytes] at hhigh
  rw [Word.low_ofBytes, Word.low_ofBytes] at hlow
  rcases Nat.mod_two_eq_zero_or_one i with he | ho
  · have hi2 : 2 * (i / 2) = i := by omega
    simpa only [hi2] using hhigh
  · have hi2 : 2 * (i / 2) + 1 = i := by omega
    simpa only [hi2] using hlow

end RegisterFile

end WordMachine
