import WordMachine.Proofs.Execution

/-!
# Decoding

An instruction fetches its operands while it is executed. `Microcode.decode` fetches all operands of
an opcode at once, and `Microcode.perform` does the rest with the instruction pointer already past
the instruction; one after the other they are `Microcode.execute`. What an instruction is about is
thus known from its `Instruction`: where it puts its result, whether it uses the stack, how long it
is. What decoding reads is given by the format of the opcode, the list of the fields that follow it.

* `execute_eq`: executing is decoding and performing.
* `decode_apply`: decoding is reading the fields of the format, with the instruction pointer moved
  behind them.
* `decode_ensures`, `decode_readsOnly`: decoding moves the instruction pointer and nothing else.
* `performs_of_step`, `step_of_performs`: the step of a machine by its decoded instruction.
-/

namespace WordMachine

variable {δ : Type}

/-- The instructions that begin and end the frame of a subroutine. -/
inductive Transfer where
  | call
  | ret
deriving DecidableEq, Repr

/-- An instruction with its operands. -/
inductive Instruction where
  | move (source : Operand) (target : Register)
  | store (source : Operand) (target : Word)
  | load (source : Word) (target : Register)
  | loadIndirect (pointer target : Register)
  | loadIndexed (base : Word) (offset target : Register)
  | arithmetic (operation : Arithmetic) (first : Operand) (second : Register)
  | literalMinus (subtrahend : Register) (minuend : Word)
  | unary (operation : Unary) (target : Register)
  | shift (direction : Shift) (target : Register) (amount : Operand)
  | bitwise (operation : Bitwise) (target : Register) (second : Operand)
  | jump (condition : Comparison) (compared : Operand) (target : Word)
  | push (source : Operand)
  | pop (target : Register)
  | call (target : Operand)
  | ret
  | halt
  | unknown (byte : Byte)
deriving DecidableEq, Repr

namespace Operand

/-- Where an operand comes from. -/
def source : Operand → Source
  | literal _ => .literal
  | register _ => .register

/-- The number of bytes of an operand that is a word or names a register. -/
def length : Operand → Word
  | literal _ => 2
  | register _ => 1

end Operand

namespace Instruction

/-- The opcode of an instruction. -/
def opcode : Instruction → Opcode
  | move source _ => .move source.source
  | store source _ => .store source.source
  | load _ _ => .load
  | loadIndirect _ _ => .loadIndirect
  | loadIndexed _ _ _ => .loadIndexed
  | arithmetic operation first _ => .arithmetic operation first.source
  | literalMinus _ _ => .literalMinus
  | unary operation _ => .unary operation
  | shift direction _ amount => .shift direction amount.source
  | bitwise operation _ second => .bitwise operation second.source
  | jump condition compared _ => .jump condition compared.source
  | push source => .push source.source
  | pop _ => .pop
  | call target => .call target.source
  | ret => .ret
  | halt => .halt
  | unknown byte => .unknown byte

/-- The number of bytes of an instruction. The literal amount of a shift is a single byte. -/
def length : Instruction → Word
  | move source _ => 2 + source.length
  | store source _ => 3 + source.length
  | load _ _ => 4
  | loadIndirect _ _ => 3
  | loadIndexed _ _ _ => 5
  | arithmetic _ first _ => 2 + first.length
  | literalMinus _ _ => 4
  | unary _ _ => 2
  | shift _ _ _ => 3
  | bitwise _ _ second => 2 + second.length
  | jump _ compared _ => 3 + compared.length
  | push source => 1 + source.length
  | pop _ => 2
  | call target => 1 + target.length
  | ret => 1
  | halt => 1
  | unknown _ => 1

/-- The register that an instruction names as the one to write. -/
def destination? : Instruction → Option Register
  | move _ target => some target
  | load _ target => some target
  | loadIndirect _ target => some target
  | loadIndexed _ _ target => some target
  | unary _ target => some target
  | shift _ target _ => some target
  | bitwise _ target _ => some target
  | pop target => some target
  | _ => none

/-- The registers that an instruction writes, apart from the instruction pointer that moves behind
    it. -/
def written : Instruction → List Register
  | move _ target => [target]
  | store _ _ => []
  | load _ target => [target]
  | loadIndirect _ target => [target]
  | loadIndexed _ _ target => [target]
  | arithmetic _ _ _ => [.acc]
  | literalMinus _ _ => [.acc]
  | unary _ target => [target]
  | shift _ target _ => [target]
  | bitwise _ target _ => [target]
  | jump _ _ _ => [.ip]
  | push _ => [.sp]
  | pop target => [.sp, target]
  | call _ => [.sp, .fp, .ip]
  | ret => [.sp, .fp, .ip] ++ Register.general
  | halt => []
  | unknown _ => []

/-- An instruction names the stack pointer or the frame pointer as the register to write. -/
def NamesPointer (i : Instruction) : Prop :=
  i.destination? = some .sp ∨ i.destination? = some .fp

instance (i : Instruction) : Decidable i.NamesPointer :=
  inferInstanceAs (Decidable (_ ∨ _))

/-- Which of a call and a return an instruction is, if it is one. -/
def transfer? : Instruction → Option Transfer
  | call _ => some .call
  | ret => some .ret
  | _ => none

/-- Whether an instruction works on the stack. -/
def usesStack : Instruction → Bool
  | push _ => true
  | pop _ => true
  | i => i.transfer?.isSome

/-- An instruction that does not use the stack writes one of its pointers only by naming it. -/
theorem ne_pointer_of_mem_written {i : Instruction} (hi : i.usesStack = false)
    (hn : ¬i.NamesPointer) {r : Register} (hr : r ∈ i.written) : r ≠ .sp ∧ r ≠ .fp := by
  cases i with
  | push | pop | call | ret => cases hi
  | arithmetic | literalMinus | jump =>
    obtain rfl := List.mem_singleton.mp hr
    decide
  | store | halt | unknown => cases hr
  | _ =>
    obtain rfl := List.mem_singleton.mp hr
    simpa [NamesPointer, destination?] using hn

end Instruction

namespace Core

/-- The core with the instruction pointer moved ahead. -/
def advanced (core : Core) (n : Word) : Core := core.set .ip (core.get .ip + n)

/-- The value of an operand. -/
def valueOf (core : Core) : Operand → Word
  | .literal word => word
  | .register r => core.get r

theorem ext_get {core core' : Core} (h : ∀ r, core.get r = core'.get r)
    (hs : core.frameSize = core'.frameSize) : core = core' := by
  obtain ⟨registers, size⟩ := core
  obtain ⟨registers', size'⟩ := core'
  have hr : registers = registers' := RegisterFile.ext_get h
  cases hr
  cases hs
  rfl

@[simp] theorem get_advanced (core : Core) (n : Word) (r : Register) :
    (core.advanced n).get r = if .ip = r then core.get .ip + n else core.get r := by
  rw [advanced, get_set]

theorem get_advanced_of_ne (core : Core) (n : Word) {r : Register} (h : .ip ≠ r) :
    (core.advanced n).get r = core.get r := by
  rw [get_advanced, if_neg h]

@[simp] theorem frameSize_advanced (core : Core) (n : Word) :
    (core.advanced n).frameSize = core.frameSize := rfl

@[simp] theorem advanced_zero (core : Core) : core.advanced 0 = core := by
  apply ext_get
  · intro r
    rw [get_advanced, UInt16.add_zero]
    split
    next h => rw [h]
    next => rfl
  · rfl

@[simp] theorem advanced_advanced (core : Core) (m n : Word) :
    (core.advanced m).advanced n = core.advanced (m + n) := by
  apply ext_get
  · intro r
    by_cases h : Register.ip = r <;> simp [h, UInt16.add_assoc]
  · rfl

end Core

/-! ## Operands -/

/-- How an operand is written in an instruction. -/
inductive Field where
  /-- a byte that names a register -/
  | register
  /-- a byte that stands for itself -/
  | byte
  /-- a word, which is read at its first byte -/
  | word
deriving DecidableEq, Repr

namespace Field

/-- The number of bytes of a field. -/
def width : Field → Word
  | register => 1
  | byte => 1
  | word => 2

/-- The access that reads a field. -/
def request : Field → Request
  | register => .readByte
  | byte => .readByte
  | word => .readWord

theorem isWrite_request (field : Field) : field.request.isWrite = false := by
  cases field <;> rfl

/-- What a field holds. -/
@[reducible] def Value : Field → Type
  | register => Register
  | byte => Byte
  | word => Word

/-- What a field holds, from the bytes that were read. -/
def value : (field : Field) → field.request.Reply → field.Value
  | register, reply => Register.ofByte reply
  | byte, reply => reply
  | word, reply => reply

end Field

/-- The fields that follow an opcode. -/
abbrev Format := List Field

namespace Format

/-- The number of bytes of a format. -/
def width : Format → Word
  | [] => 0
  | field :: rest => field.width + width rest

/-- What the fields of a format hold. -/
@[reducible] def Operands : Format → Type
  | [] => Unit
  | field :: rest => field.Value × Operands rest

/-- Reads the fields of a format from an address on. -/
def fetch : (format : Format) → Word → BusProgram format.Operands
  | [], _ => .done ()
  | field :: rest, address =>
    .access address field.request fun reply =>
      (fetch rest (address + field.width)).bind fun operands => .done (field.value reply, operands)

theorem fetch_readsOnly (format : Format) (address : Word) :
    (format.fetch address).ReadsOnly := by
  induction format generalizing address with
  | nil => trivial
  | cons field rest ih =>
    exact ⟨field.isWrite_request, fun _ => (ih (address + field.width)).bind fun _ => trivial⟩

end Format

namespace Source

/-- The field of an operand that is a word or names a register. -/
@[reducible] def field : Source → Field
  | literal => .word
  | register => .register

/-- The field of the amount of a shift. -/
@[reducible] def amountField : Source → Field
  | literal => .byte
  | register => .register

/-- The operand in a field. -/
def operand : (source : Source) → source.field.Value → Operand
  | literal, word => .literal word
  | register, r => .register r

/-- The amount in a field. -/
def amount : (source : Source) → source.amountField.Value → Operand
  | literal, byte => .literal byte.toUInt16
  | register, r => .register r

theorem source_operand (source : Source) (value : source.field.Value) :
    (source.operand value).source = source := by
  cases source <;> rfl

theorem source_amount (source : Source) (value : source.amountField.Value) :
    (source.amount value).source = source := by
  cases source <;> rfl

theorem length_operand (source : Source) (value : source.field.Value) :
    (source.operand value).length = source.field.width := by
  cases source <;> rfl

end Source

namespace Opcode

/-- The fields that follow each opcode, in order. -/
@[reducible] def format : Opcode → Format
  | move value => [value.field, .register]
  | store value => [value.field, .word]
  | load => [.word, .register]
  | loadIndirect => [.register, .register]
  | loadIndexed => [.word, .register, .register]
  | arithmetic _ first => [first.field, .register]
  | literalMinus => [.register, .word]
  | unary _ => [.register]
  | shift _ amount => [.register, amount.amountField]
  | bitwise _ second => [.register, second.field]
  | jump _ value => [value.field, .word]
  | push value => [value.field]
  | pop => [.register]
  | call target => [target.field]
  | ret => []
  | halt => []
  | unknown _ => []

/-- The number of bytes of an instruction with its opcode. -/
def length (op : Opcode) : Word := 1 + op.format.width

/-- The instruction that an opcode and the operands of its format make. -/
def instruction : (op : Opcode) → op.format.Operands → Instruction
  | move value, (source, target, ()) => .move (value.operand source) target
  | store value, (source, target, ()) => .store (value.operand source) target
  | load, (source, target, ()) => .load source target
  | loadIndirect, (pointer, target, ()) => .loadIndirect pointer target
  | loadIndexed, (base, offset, target, ()) => .loadIndexed base offset target
  | arithmetic operation first, (left, right, ()) =>
    .arithmetic operation (first.operand left) right
  | literalMinus, (subtrahend, minuend, ()) => .literalMinus subtrahend minuend
  | unary operation, (target, ()) => .unary operation target
  | shift direction amount, (target, by', ()) => .shift direction target (amount.amount by')
  | bitwise operation second, (target, right, ()) =>
    .bitwise operation target (second.operand right)
  | jump condition value, (compared, target, ()) => .jump condition (value.operand compared) target
  | push value, (source, ()) => .push (value.operand source)
  | pop, (target, ()) => .pop target
  | call target, (operand, ()) => .call (target.operand operand)
  | ret, () => .ret
  | halt, () => .halt
  | unknown byte, () => .unknown byte

theorem opcode_instruction (op : Opcode) (operands : op.format.Operands) :
    (op.instruction operands).opcode = op := by
  cases op <;> simp [instruction, Instruction.opcode, Source.source_operand, Source.source_amount]

theorem length_instruction (op : Opcode) (operands : op.format.Operands) :
    (op.instruction operands).length = op.length := by
  cases op <;>
    simp [instruction, Instruction.length, length, Format.width, Field.width, Source.length_operand]
    <;> grind

end Opcode

namespace Microcode

/-- All operands of an opcode, fetched one after the other. -/
def decode : Opcode → Microcode Instruction
  | .move source => do
    let operand ← fetchOperand source
    let target ← fetchRegister
    return .move operand target
  | .store source => do
    let operand ← fetchOperand source
    let target ← fetchWord
    return .store operand target
  | .load => do
    let source ← fetchWord
    let target ← fetchRegister
    return .load source target
  | .loadIndirect => do
    let pointer ← fetchRegister
    let target ← fetchRegister
    return .loadIndirect pointer target
  | .loadIndexed => do
    let base ← fetchWord
    let offset ← fetchRegister
    let target ← fetchRegister
    return .loadIndexed base offset target
  | .arithmetic operation source => do
    let first ← fetchOperand source
    let second ← fetchRegister
    return .arithmetic operation first second
  | .literalMinus => do
    let subtrahend ← fetchRegister
    let minuend ← fetchWord
    return .literalMinus subtrahend minuend
  | .unary operation => do
    let target ← fetchRegister
    return .unary operation target
  | .shift direction source => do
    let target ← fetchRegister
    let amount ← fetchAmount source
    return .shift direction target amount
  | .bitwise operation source => do
    let target ← fetchRegister
    let second ← fetchOperand source
    return .bitwise operation target second
  | .jump condition source => do
    let compared ← fetchOperand source
    let target ← fetchWord
    return .jump condition compared target
  | .push source => do
    let operand ← fetchOperand source
    return .push operand
  | .pop => do
    let target ← fetchRegister
    return .pop target
  | .call source => do
    let operand ← fetchOperand source
    return .call operand
  | .ret => return .ret
  | .halt => return .halt
  | .unknown byte => return .unknown byte

/-- A whole instruction with its operands. -/
def fetchInstruction : Microcode Instruction := do
  decode (Opcode.ofByte (← fetchByte))

/-- The value that a jump fetched at `address` compares with the accumulator. It was read before the
    target was fetched, which shows if it is the value of the instruction pointer. -/
def comparand (address : Word) (operand : Operand) : Microcode Word :=
  if operand = .register .ip then pure (address + 2) else value operand

/-- What is left to do of an instruction fetched at `address` when its operands are known. -/
def perform (address : Word) : Instruction → Microcode Unit
  | .move source target => do set target (← value source)
  | .store source target => do access target (.writeWord (← value source))
  | .load source target => do set target (← access source .readWord)
  | .loadIndirect pointer target => do set target (← access (← get pointer) .readWord)
  | .loadIndexed base offset target => do
    let source ← check (effectiveAddress base (← get offset))
    set target (← access source .readWord)
  | .arithmetic operation first second => do
    set .acc (operation.apply (← value first) (← get second))
  | .literalMinus subtrahend minuend => do set .acc (minuend - (← get subtrahend))
  | .unary operation target => do set target (operation.apply (← get target))
  | .shift direction target amount => do
    set target (direction.apply (← get target) (← value amount))
  | .bitwise operation target second => do
    set target (operation.apply (← get target) (← value second))
  | .jump condition compared target => do
    if condition.holds (← comparand address compared) (← get .acc) then
      set .ip target
  | .push source => do push (← value source)
  | .pop target => do set target (← pop)
  | .call operand => do
    let target ← value operand
    log (.called target operand.register? address)
    enter
    set .ip target
  | .ret => do
    leave
    log (.returned (← get .ip))
  | .halt => pure ()
  | .unknown byte => log (.skipped byte address)

/-- The value of an operand is there without an access. -/
theorem value_apply (operand : Operand) (core : Core) :
    value operand core = .done (core.valueOf operand, core) := by
  cases operand <;> rfl

theorem completes_value_bind {α : Type} [Device δ] {operand : Operand}
    {next : Word → Microcode α} {core core' : Core} {device device' : δ} {a : α} :
    (value operand >>= next).Completes core device a core' device' ↔
      (next (core.valueOf operand)).Completes core device a core' device' :=
  completes_bind_of_done (value_apply operand core)

theorem get_bind_apply {α : Type} (r : Register) (next : Word → Microcode α) (core : Core) :
    (get r >>= next) core = next (core.get r) core := rfl

/-- The registers of a jump are read before its target is fetched, those of other instructions
    after all operands are fetched. -/
theorem execute_eq {address : Word} {core : Core} (op : Opcode)
    (h : core.get .ip = address + 1) :
    execute address op core = (decode op >>= perform address) core := by
  cases op with
  | jump condition source =>
    cases source with
    | literal => rfl
    | register =>
      change BusProgram.access _ _ _ = BusProgram.access _ _ _
      congr 1
      funext byte
      change BusProgram.access _ _ _ = BusProgram.access _ _ _
      congr 1
      funext target
      have hip : (core.advanced 1).get .ip = address + 2 := by
        rw [Core.get_advanced, if_pos rfl, h, UInt16.add_assoc]
        rfl
      change ((do
          if condition.holds ((core.advanced 1).get (Register.ofByte byte)) (← get .acc) then
            set .ip target) : Microcode Unit) ((core.advanced 1).advanced 2) =
        perform address (.jump condition (.register (Register.ofByte byte)) target)
          ((core.advanced 1).advanced 2)
      by_cases hr : Register.ofByte byte = .ip
      · rw [perform, comparand, hr, if_pos rfl, hip, pure_bind]
      · rw [perform, comparand, if_neg (by simpa using hr), value]
        rw [← Core.get_advanced_of_ne (core.advanced 1) 2 (Ne.symm hr), get_bind_apply,
          get_bind_apply, get_bind_apply]
  | _ => simp [execute, decode, perform]

/-! ## Decoding by format -/

/-- Fetches a field at the instruction pointer. -/
def fetchField : (field : Field) → Microcode field.Value
  | .register => fetchRegister
  | .byte => fetchByte
  | .word => fetchWord

/-- Fetches the fields of a format at the instruction pointer. -/
def fetchFormat : (format : Format) → Microcode format.Operands
  | [] => pure ()
  | field :: rest => do
    let value ← fetchField field
    let operands ← fetchFormat rest
    return (value, operands)

theorem fetchOperand_eq (source : Source) :
    fetchOperand source = source.operand <$> fetchField source.field := by
  cases source <;> rfl

theorem fetchAmount_eq (source : Source) :
    fetchAmount source = source.amount <$> fetchField source.amountField := by
  cases source <;> rfl

/-- Decoding is fetching the format. -/
theorem decode_eq (op : Opcode) : decode op = op.instruction <$> fetchFormat op.format := by
  cases op <;>
    simp [decode, fetchFormat, fetchField, fetchOperand_eq, fetchAmount_eq, Opcode.instruction]

theorem fetchField_apply (field : Field) (core : Core) :
    fetchField field core = .access (core.get .ip) field.request fun reply =>
      .done (field.value reply, core.advanced field.width) := by
  cases field <;> rfl

/-- The fields of a format are at the addresses from the instruction pointer on, and the instruction
    pointer is behind them then. -/
theorem fetchFormat_apply (format : Format) (core : Core) :
    fetchFormat format core = (format.fetch (core.get .ip)).bind fun operands =>
      .done (operands, core.advanced format.width) := by
  induction format generalizing core with
  | nil => exact congrArg (fun c => BusProgram.done ((), c)) core.advanced_zero.symm
  | cons field rest ih =>
    change (fetchField field core).bind (fun r =>
      (fetchFormat rest r.2).bind fun r' => .done ((r.1, r'.1), r'.2)) = _
    rw [fetchField_apply]
    change BusProgram.access _ _ _ = BusProgram.access _ _ _
    congr 1
    funext reply
    change (fetchFormat rest (core.advanced field.width)).bind _ = BusProgram.bind (.bind _ _) _
    rw [ih, Core.get_advanced, if_pos rfl, BusProgram.bind_assoc, BusProgram.bind_assoc,
      Core.advanced_advanced]
    rfl

theorem decode_apply (op : Opcode) (core : Core) :
    decode op core = (op.format.fetch (core.get .ip)).bind fun operands =>
      .done (op.instruction operands, core.advanced op.format.width) := by
  rw [decode_eq]
  change (fetchFormat op.format core).bind _ = _
  rw [fetchFormat_apply, BusProgram.bind_assoc]
  rfl

/-! ## What decoding ensures -/

/-- Decoding moves the instruction pointer over the operands and does nothing else. -/
theorem decode_ensures (core : Core) (op : Opcode) :
    (decode op).Ensures (core.advanced 1) fun i core' =>
      i.opcode = op ∧ core' = core.advanced i.length := by
  unfold Ensures
  rw [decode_apply, BusProgram.always_bind, Core.advanced_advanced]
  refine BusProgram.always_of_forall _ fun operands => ⟨op.opcode_instruction operands, ?_⟩
  rw [op.length_instruction operands]
  rfl

theorem fetchByte_readsOnly : fetchByte.ReadsOnly :=
  (readsOnly_get .ip).bind fun ip => (readsOnly_access ip rfl).bind fun byte =>
    (readsOnly_set .ip (ip + 1)).bind fun _ => readsOnly_pure byte

theorem decode_readsOnly (op : Opcode) : (decode op).ReadsOnly := by
  intro core
  rw [decode_apply]
  exact (op.format.fetch_readsOnly _).bind fun _ => trivial

/-- Fetching an instruction asks for no change. -/
theorem fetchInstruction_readsOnly : fetchInstruction.ReadsOnly :=
  fetchByte_readsOnly.bind fun byte => decode_readsOnly (Opcode.ofByte byte)

section

variable [Device δ] {core core' : Core} {device device' : δ}

theorem fetchByte_completes_iff {byte : Byte} :
    fetchByte.Completes core device byte core' device' ↔
      Device.answer device (core.get .ip) .readByte = (.ok byte, device') ∧
        core' = core.advanced 1 := by
  rw [fetchByte, completes_get_bind, completes_access_bind]
  simp only [completes_set_bind, completes_pure]
  constructor
  · rintro ⟨_, _, hanswer, rfl, rfl, rfl⟩
    exact ⟨hanswer, rfl⟩
  · rintro ⟨hanswer, rfl⟩
    exact ⟨byte, device', hanswer, rfl, rfl, rfl⟩

theorem fetchWord_completes_iff {word : Word} :
    fetchWord.Completes core device word core' device' ↔
      Device.answer device (core.get .ip) .readWord = (.ok word, device') ∧
        core' = core.advanced 2 := by
  rw [fetchWord, completes_get_bind, completes_access_bind]
  simp only [completes_set_bind, completes_pure]
  constructor
  · rintro ⟨_, _, hanswer, rfl, rfl, rfl⟩
    exact ⟨hanswer, rfl⟩
  · rintro ⟨hanswer, rfl⟩
    exact ⟨word, device', hanswer, rfl, rfl, rfl⟩

end

theorem fetchByte_ensures (core : Core) :
    fetchByte.Ensures core fun _ core' => core' = core.advanced 1 := fun _ => rfl

theorem fetchInstruction_ensures (core : Core) :
    fetchInstruction.Ensures core fun i core' => core' = core.advanced i.length := by
  refine (fetchByte_ensures core).bind fun byte core₁ h₁ => ?_
  subst h₁
  exact (decode_ensures core (Opcode.ofByte byte)).mono fun _ _ h => h.2

section

variable [Device δ] {core core' : Core} {device device' : δ}

theorem execute_completes_iff {address : Word} {op : Opcode} (h : core.get .ip = address + 1) :
    (execute address op).Completes core device () core' device' ↔
      ∃ i core₁ device₁, (decode op).Completes core device i core₁ device₁ ∧
        (perform address i).Completes core₁ device₁ () core' device' := by
  rw [← completes_bind]
  unfold Completes
  rw [execute_eq op h]

/-- A whole instruction is its operands and then the rest. -/
theorem instruction_completes_iff {b : Bool} :
    instruction.Completes core device b core' device' ↔
      ∃ i device₁, fetchInstruction.Completes core device i (core.advanced i.length) device₁ ∧
        (perform (core.get .ip) i).Completes (core.advanced i.length) device₁ () core' device' ∧
        b = (i.opcode == .halt) := by
  rw [instruction, completes_get_bind, completes_bind]
  constructor
  · rintro ⟨byte, core₁, device₁, hbyte, hrest⟩
    rw [completes_log_bind, completes_bind] at hrest
    obtain ⟨⟨⟩, core₂, device₂, hexec, hreturn⟩ := hrest
    obtain ⟨rfl, rfl, rfl⟩ := completes_pure.mp hreturn
    obtain rfl := (fetchByte_ensures _).of_completes hbyte
    obtain ⟨i, core₁, device₂, hdecode, hperform⟩ :=
      (execute_completes_iff (by rw [Core.get_advanced, if_pos rfl])).mp hexec
    obtain ⟨hop, rfl⟩ := (decode_ensures _ _).of_completes hdecode
    exact ⟨i, device₂, completes_bind.mpr ⟨byte, _, device₁, hbyte, hdecode⟩, hperform, by rw [hop]⟩
  · rintro ⟨i, device₂, hfetch, hperform, rfl⟩
    obtain ⟨byte, core₁, device₁, hbyte, hdecode⟩ := completes_bind.mp hfetch
    obtain rfl := (fetchByte_ensures _).of_completes hbyte
    obtain ⟨hop, -⟩ := (decode_ensures _ _).of_completes hdecode
    refine ⟨byte, _, device₁, hbyte, ?_⟩
    rw [completes_log_bind, completes_bind]
    have hexec := (execute_completes_iff (by rw [Core.get_advanced, if_pos rfl])).mpr
      ⟨i, _, device₂, hdecode, hperform⟩
    exact ⟨(), core', device', hexec, completes_pure.mpr ⟨by rw [hop], rfl, rfl⟩⟩

end

end Microcode

/-! ## The instruction of a step -/

namespace Machine

variable [Device δ]

/-- The instruction that the next step performs, if the machine has not halted and the instruction
    can be fetched. -/
def instruction? (machine : Machine δ) : Option Instruction :=
  if machine.halted then none
  else match (Microcode.fetchInstruction machine.core).eval machine.bus with
    | (.ok (i, _), _) => some i
    | (.error _, _) => none

variable {machine : Machine δ} {i : Instruction}

theorem instruction?_eq_some_iff :
    machine.instruction? = some i ↔ machine.halted = false ∧
      ∃ bus, Microcode.fetchInstruction.Completes machine.core machine.bus i
        (machine.core.advanced i.length) bus := by
  unfold instruction?
  cases machine.halted with
  | true => simp
  | false =>
    rw [if_neg (by decide)]
    constructor
    · intro h
      split at h
      next j core bus heq =>
        cases h
        have hcore := (Microcode.fetchInstruction_ensures machine.core).of_completes heq
        exact ⟨rfl, bus, hcore ▸ heq⟩
      next => cases h
    · rintro ⟨-, bus, h⟩
      unfold Microcode.Completes at h
      rw [h]

/-- A step that succeeds has fetched an instruction and done what is left to do of it. -/
theorem performs_of_step {b : Bool} (hm : machine.halted = false) (h : machine.step.1 = .ok b) :
    ∃ i bus, machine.instruction? = some i ∧
      Microcode.fetchInstruction.Completes machine.core machine.bus i
        (machine.core.advanced i.length) bus ∧
      (Microcode.perform (machine.core.get .ip) i).Completes (machine.core.advanced i.length) bus ()
        machine.step.2.core machine.step.2.bus ∧ b = (i.opcode == .halt) := by
  obtain ⟨i, bus, hf, hp, hb⟩ := Microcode.instruction_completes_iff.mp (completes_of_step hm h)
  exact ⟨i, bus, instruction?_eq_some_iff.mpr ⟨hm, bus, hf⟩, hf, hp, hb⟩

/-- An instruction that was fetched and can be performed makes a step succeed. -/
theorem step_of_performs {bus bus' : Bus δ} {core : Core} (hm : machine.halted = false)
    (hf : Microcode.fetchInstruction.Completes machine.core machine.bus i
      (machine.core.advanced i.length) bus)
    (hp : (Microcode.perform (machine.core.get .ip) i).Completes (machine.core.advanced i.length)
      bus () core bus') :
    machine.step.1 = .ok (i.opcode == .halt) ∧ machine.step.2.core = core ∧
      machine.step.2.bus = bus' :=
  step_of_completes hm (Microcode.instruction_completes_iff.mpr ⟨i, bus, hf, hp, rfl⟩)

end Machine

end WordMachine
