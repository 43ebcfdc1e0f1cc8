/-!
# Bytes and words

The machine computes with bytes of 8 bits and words of 16 bits. A word is stored as two bytes,
the high one first, and `Word.ofBytes` and the pair `Word.high`, `Word.low` are inverse to each
other. Arithmetic on words is modulo `2^16`.
-/

namespace WordMachine

/-- A cell of storage. -/
abbrev Byte := UInt8

/-- A machine word, also used as an address. -/
abbrev Word := UInt16

namespace Word

/-- The upper eight bits of a word, stored first. -/
def high (w : Word) : Byte := (w / 256).toUInt8

/-- The lower eight bits of a word, stored second. -/
def low (w : Word) : Byte := w.toUInt8

/-- The word stored as the two given bytes. -/
def ofBytes (high low : Byte) : Word := high.toUInt16 * 256 + low.toUInt16

theorem toNat_high (w : Word) : (high w).toNat = w.toNat / 256 := by
  have := w.toNat_lt
  simp [high]
  omega

theorem toNat_low (w : Word) : (low w).toNat = w.toNat % 256 := by
  simp [low]

theorem toNat_ofBytes (h l : Byte) : (ofBytes h l).toNat = h.toNat * 256 + l.toNat := by
  have := h.toNat_lt
  have := l.toNat_lt
  simp [ofBytes]
  omega

@[simp] theorem high_ofBytes (h l : Byte) : high (ofBytes h l) = h := by
  have := l.toNat_lt
  apply UInt8.toNat_inj.mp
  rw [toNat_high, toNat_ofBytes]
  omega

@[simp] theorem low_ofBytes (h l : Byte) : low (ofBytes h l) = l := by
  have := l.toNat_lt
  apply UInt8.toNat_inj.mp
  rw [toNat_low, toNat_ofBytes]
  omega

@[simp] theorem ofBytes_high_low (w : Word) : ofBytes (high w) (low w) = w := by
  apply UInt16.toNat_inj.mp
  rw [toNat_ofBytes, toNat_high, toNat_low]
  omega

end Word

end WordMachine
