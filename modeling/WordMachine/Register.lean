import WordMachine.Fault

/-!
# Registers

The machine has twelve registers: the instruction pointer, the accumulator, eight general ones,
and the stack and frame pointers. An instruction names a register by a byte, which is reduced
modulo twelve; everything else names it by its lower-case name.

* `ofName_eq_ok_iff`: a name is understood exactly if it is the name of a register.
* `ofByte_index`: the byte that is the position of a register names it.
-/

namespace WordMachine

/-- A register of the machine. -/
inductive Register where
  /-- the instruction pointer -/
  | ip
  /-- the accumulator -/
  | acc
  | r1 | r2 | r3 | r4 | r5 | r6 | r7 | r8
  /-- the stack pointer -/
  | sp
  /-- the frame pointer -/
  | fp
deriving DecidableEq, Repr

namespace Register

/-- The number of registers. -/
abbrev count : Nat := 12

/-- All registers, in the order of the register file. -/
def all : Vector Register count := #v[ip, acc, r1, r2, r3, r4, r5, r6, r7, r8, sp, fp]

/-- The registers that a call saves, in the order in which it pushes them. -/
def general : List Register := [r1, r2, r3, r4, r5, r6, r7, r8]

/-- The register that an operand byte names. -/
def ofByte (b : Byte) : Register := all.get ⟨b.toNat % count, Nat.mod_lt _ (by decide)⟩

/-- The position of a register in the register file. -/
def index : Register → Nat
  | ip => 0
  | acc => 1
  | r1 => 2
  | r2 => 3
  | r3 => 4
  | r4 => 5
  | r5 => 6
  | r6 => 7
  | r7 => 8
  | r8 => 9
  | sp => 10
  | fp => 11

/-- Where the two bytes of a register begin in the register file. -/
def offset (r : Register) : Nat := 2 * r.index

/-- The name of a register. -/
def name : Register → String
  | ip => "ip"
  | acc => "acc"
  | r1 => "r1"
  | r2 => "r2"
  | r3 => "r3"
  | r4 => "r4"
  | r5 => "r5"
  | r6 => "r6"
  | r7 => "r7"
  | r8 => "r8"
  | sp => "sp"
  | fp => "fp"

/-- The register of the given name, which has to match exactly. -/
def ofName (name : String) : Except Fault Register :=
  match all.toList.find? (·.name == name) with
  | some r => .ok r
  | none => .error (.unknownRegister name)

theorem index_lt (r : Register) : r.index < count := by
  cases r <;> decide

theorem all_index (r : Register) : all[r.index]? = some r := by
  cases r <;> rfl

theorem index_injective {r s : Register} (h : r.index = s.index) : r = s := by
  have hr := all_index r
  rw [h, all_index s] at hr
  exact (Option.some.inj hr).symm

theorem exists_index {i : Nat} (h : i < count) : ∃ r : Register, r.index = i := by
  refine ⟨all[i], ?_⟩
  revert i
  decide

theorem offset_lt (r : Register) : r.offset + 1 < 2 * count := by
  have := r.index_lt
  unfold offset
  omega

theorem ofByte_index (r : Register) : ofByte (UInt8.ofNat r.index) = r := by
  cases r <;> rfl

theorem name_injective {r s : Register} (h : r.name = s.name) : r = s := by
  cases r <;> cases s <;> first | rfl | exact absurd h (by decide)

theorem mem_all (r : Register) : r ∈ all.toList := by
  cases r <;> decide

theorem ofName_eq_ok_iff {name : String} {r : Register} : ofName name = .ok r ↔ r.name = name := by
  unfold ofName
  split
  next s hs =>
    have hn := List.find?_some hs
    rw [beq_iff_eq] at hn
    constructor
    · intro h
      cases h
      exact hn
    · intro h
      rw [name_injective (hn.trans h.symm)]
  next hnone =>
    constructor
    · intro h
      cases h
    · intro h
      have := List.find?_eq_none.mp hnone r (mem_all r)
      rw [beq_iff_eq] at this
      exact absurd h this

end Register

end WordMachine
