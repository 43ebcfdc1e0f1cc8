import WordMachine.Proofs.Decoding
import WordMachine.Proofs.Memory
import WordMachine.Proofs.Trace

/-!
# Fetching ahead

An instruction fetches its operands one by one while it is executed. The operands of an opcode have a
format, a list of fields that follow the opcode in memory. `Machine.stepDecoded` fetches all fields
of the format, moves the instruction pointer behind them, and only then does what the instruction
means: it never reads a register or touches data before the last fetch. A step of the machine is the
same, with all that it logs and asks of the devices. The one register that is read earlier shows in
`Microcode.comparand`.

* `instruction_apply`: the program of an instruction, with its fetches in front.
* `follows_of_instruction?_eq_none`, `split_of_instruction?_eq_some`: the accesses and the result of a
  step, from its fetches and what is left to do after them.
* `step_eq_stepDecoded`: the two steps are the same, and what a failed fetch leaves undone.
-/

namespace WordMachine

variable {δ : Type}

/-! ## Fetches -/

namespace Format

/-- The accesses that read the fields of a format from an address on. -/
def reads : Format → Word → List (Word × Request)
  | [], _ => []
  | field :: rest, address => (address, field.request) :: reads rest (address + field.width)

/-- What a format reads does not depend on the replies. -/
theorem makes_fetch (format : Format) (address : Word) :
    (format.fetch address).Makes (fun _ => True) (format.reads address) := by
  induction format generalizing address with
  | nil => exact ⟨rfl, trivial⟩
  | cons field rest ih =>
    refine ⟨Format.reads rest (address + field.width), rfl, fun reply => ?_⟩
    rw [← List.append_nil (Format.reads rest (address + field.width))]
    exact (ih _).bind fun operands _ => ⟨rfl, trivial⟩

/-- Each read is that of a field. -/
theorem exists_field_of_mem_reads {format : Format} {address : Word} {access : Word × Request}
    (h : access ∈ format.reads address) : ∃ field ∈ format, access.2 = field.request := by
  induction format generalizing address with
  | nil => cases h
  | cons field rest ih =>
    rcases List.mem_cons.mp h with rfl | h
    · exact ⟨field, List.mem_cons_self, rfl⟩
    · obtain ⟨field', hmem, heq⟩ := ih h
      exact ⟨field', List.mem_cons_of_mem _ hmem, heq⟩

end Format

namespace Opcode

/-- The accesses that fetch an instruction with a given opcode from an address on. -/
def fetches (op : Opcode) (address : Word) : List (Word × Request) :=
  (address, .readByte) :: op.format.reads (address + 1)

/-- Fetches are reads. -/
theorem isWrite_of_mem_fetches {op : Opcode} {address : Word} {access : Word × Request}
    (h : access ∈ op.fetches address) : access.2.isWrite = false := by
  rcases List.mem_cons.mp h with rfl | h
  · rfl
  · obtain ⟨field, -, heq⟩ := Format.exists_field_of_mem_reads h
    rw [heq]
    exact field.isWrite_request

end Opcode

namespace Microcode

/-- An instruction is the fetch of its operands and then what it means, on a core whose instruction
    pointer is behind it. -/
theorem instruction_apply (core : Core) :
    instruction core = .access (core.get .ip) .readByte fun byte =>
      .log (.fetched (core.get .ip) (Opcode.ofByte byte))
        (((Opcode.ofByte byte).format.fetch (core.get .ip + 1)).bind fun operands =>
          (perform (core.get .ip) ((Opcode.ofByte byte).instruction operands)
              (core.advanced (Opcode.ofByte byte).length)).bind fun r =>
            .done (Opcode.ofByte byte == .halt, r.2)) := by
  change BusProgram.access _ _ _ = BusProgram.access _ _ _
  congr 1
  funext byte
  change BusProgram.log _ _ = BusProgram.log _ _
  congr 1
  have hip : (core.advanced 1).get .ip = core.get .ip + 1 := by rw [Core.get_advanced, if_pos rfl]
  change (execute (core.get .ip) (Opcode.ofByte byte) (core.advanced 1)).bind _ = _
  rw [execute_eq _ hip]
  change ((decode (Opcode.ofByte byte) (core.advanced 1)).bind _).bind _ = _
  rw [decode_apply, hip, BusProgram.bind_assoc, BusProgram.bind_assoc, Core.advanced_advanced]
  rfl

theorem fetchInstruction_apply (core : Core) :
    fetchInstruction core = .access (core.get .ip) .readByte fun byte =>
      ((Opcode.ofByte byte).format.fetch (core.get .ip + 1)).bind fun operands =>
        .done ((Opcode.ofByte byte).instruction operands,
          core.advanced (Opcode.ofByte byte).length) := by
  change BusProgram.access _ _ _ = BusProgram.access _ _ _
  congr 1
  funext byte
  change decode (Opcode.ofByte byte) (core.advanced 1) = _
  rw [decode_apply, Core.get_advanced, if_pos rfl, Core.advanced_advanced]
  rfl

section

variable [Device δ]

/-- An instruction makes the accesses that fetch it, and then those of what is left to do. -/
theorem trace_instruction (core : Core) (device : δ) :
    (instruction core).trace device = (fetchInstruction core).trace device ++
      match (fetchInstruction core).eval device with
      | (.ok (i, core'), device) => (perform (core.get .ip) i core').trace device
      | (.error _, _) => [] := by
  rw [instruction_apply, fetchInstruction_apply, BusProgram.trace, BusProgram.trace,
    BusProgram.eval]
  generalize Device.answer device (core.get .ip) .readByte = reply
  obtain ⟨f | byte, device₁⟩ := reply
  · rfl
  · dsimp only
    rw [BusProgram.trace, BusProgram.trace_bind, BusProgram.trace_bind_done,
      BusProgram.eval_bind_done]
    generalize ((Opcode.ofByte byte).format.fetch (core.get .ip + 1)).eval device₁ = fetched
    obtain ⟨f | operands, device₂⟩ := fetched
    · rfl
    · dsimp only
      rw [BusProgram.trace_bind_done, List.cons_append]
      rfl

/-- An instruction ends as what is left to do of it when it is fetched, and fails if that fails. -/
theorem eval_instruction (core : Core) (device : δ) :
    ((instruction core).eval device).1.map Prod.fst =
      match (fetchInstruction core).eval device with
      | (.ok (i, core'), device) =>
        ((perform (core.get .ip) i core').eval device).1.map fun _ => i.opcode == .halt
      | (.error fault, _) => .error fault := by
  rw [instruction_apply, fetchInstruction_apply, BusProgram.eval, BusProgram.eval]
  generalize Device.answer device (core.get .ip) .readByte = reply
  obtain ⟨f | byte, device₁⟩ := reply
  · rfl
  · dsimp only
    rw [BusProgram.eval, BusProgram.eval_bind, BusProgram.eval_bind_done]
    generalize ((Opcode.ofByte byte).format.fetch (core.get .ip + 1)).eval device₁ = fetched
    obtain ⟨f | operands, device₂⟩ := fetched
    · rfl
    · dsimp only
      rw [BusProgram.eval_bind_done]
      dsimp only [Except.map]
      rw [Opcode.opcode_instruction]
      generalize (perform _ _ _).eval device₂ = performed
      obtain ⟨_ | _, device₃⟩ := performed <;> rfl

end

end Microcode

/-! ## Steps -/

namespace Machine

variable [Device δ] {machine : Machine δ}

/-- Performs one instruction as `step` does, but fetches all operands first. The instruction pointer
    is then moved behind them at once, and what the instruction means is done in that state: all
    registers are read there, and only a jump that names the instruction pointer compares the value
    of `Microcode.comparand`, two past the opcode. -/
def stepDecoded (machine : Machine δ) : Except Fault Bool × Machine δ :=
  if machine.halted then (.ok true, machine)
  else
    let ip := machine.core.get .ip
    match machine.bus.answer ip .readByte with
    | (.error fault, bus) => (.error fault, { machine with bus })
    | (.ok byte, bus) =>
      let op := Opcode.ofByte byte
      match (op.format.fetch (ip + 1)).run bus (machine.log.push (.fetched ip op)) with
      | ⟨.error fault, bus, log⟩ => (.error fault, { machine with bus, log })
      | ⟨.ok operands, bus, log⟩ =>
        let core := machine.core.set .ip (ip + op.length)
        match (Microcode.perform ip (op.instruction operands) core).run bus log with
        | ⟨.error fault, bus, log⟩ => (.error fault, { machine with bus, log })
        | ⟨.ok ((), core), bus, log⟩ =>
          if op = .halt then (.ok true, ⟨core, bus, true, log.push (.halted (core.get .ip))⟩)
          else (.ok false, ⟨core, bus, false, log⟩)

theorem step_eq_fetchFirst (machine : Machine δ) : machine.step = machine.stepDecoded := by
  obtain ⟨core, bus, halted, log⟩ := machine
  cases halted with
  | true => rfl
  | false =>
    rw [step, stepDecoded, if_neg (by simp), Microcode.instruction_apply, BusProgram.run,
      Bus.device_answer]
    dsimp only
    generalize bus.answer (core.get .ip) .readByte = reply
    obtain ⟨_ | byte, bus⟩ := reply
    · rfl
    · dsimp only
      rw [BusProgram.run, BusProgram.run_bind]
      generalize ((Opcode.ofByte byte).format.fetch (core.get .ip + 1)).run bus _ = fetched
      obtain ⟨_ | operands, bus, log⟩ := fetched
      · rfl
      · dsimp only
        rw [BusProgram.run_bind, Core.advanced]
        generalize (Microcode.perform _ _ _).run bus log = performed
        obtain ⟨_ | ⟨_, core⟩, bus, log⟩ := performed
        · rfl
        · dsimp only
          rw [BusProgram.run]
          cases Opcode.ofByte byte <;> rfl

/-- The opcode that the next step fetches, if the machine has not halted and the opcode can be
    read. -/
def opcode? (machine : Machine δ) : Option Opcode :=
  if machine.halted then none
  else match machine.bus.answer (machine.core.get .ip) .readByte with
    | (.ok byte, _) => some (Opcode.ofByte byte)
    | (.error _, _) => none

theorem halted_of_opcode? {op : Opcode} (h : machine.opcode? = some op) :
    machine.halted = false := by
  unfold opcode? at h
  split at h
  next => cases h
  next hm => simpa using hm

theorem trace_of_not_halted (hm : machine.halted = false) :
    machine.trace = (Microcode.instruction machine.core).trace machine.bus := by
  rw [trace, hm, if_neg (by decide)]

/-- The opcode is fetched first, and then the fields of its format. -/
theorem follows_fetchInstruction (hm : machine.halted = false) :
    ∃ op, (machine.opcode? = none ∨ machine.opcode? = some op) ∧
      Follows (op.fetches (machine.core.get .ip))
        ((Microcode.fetchInstruction machine.core).trace machine.bus)
        (((Microcode.fetchInstruction machine.core).eval machine.bus).1.map fun _ => ()) := by
  rw [Microcode.fetchInstruction_apply, BusProgram.trace, BusProgram.eval, Bus.device_answer,
    opcode?, hm, if_neg (by decide)]
  generalize machine.bus.answer (machine.core.get .ip) .readByte = reply
  obtain ⟨f | byte, bus⟩ := reply
  · exact ⟨.halt, Or.inl rfl, .failed _ _ _ f⟩
  · refine ⟨Opcode.ofByte byte, Or.inr rfl, .cons ?_⟩
    have hfollows := ((Opcode.ofByte byte).format.makes_fetch (machine.core.get .ip + 1)).follows bus
    dsimp only
    rw [BusProgram.trace_bind_done, BusProgram.eval_bind_done]
    generalize ((Opcode.ofByte byte).format.fetch (machine.core.get .ip + 1)).eval bus = fetched
      at hfollows ⊢
    obtain ⟨_ | _, bus'⟩ := fetched <;> exact hfollows

theorem opcode?_of_instruction? {i : Instruction} (hi : machine.instruction? = some i) :
    machine.opcode? = some i.opcode := by
  obtain ⟨hm, bus, hfetch⟩ := instruction?_eq_some_iff.mp hi
  obtain ⟨byte, core, bus₁, hbyte, hdecode⟩ := Microcode.completes_bind.mp hfetch
  obtain ⟨hanswer, rfl⟩ := Microcode.fetchByte_completes_iff.mp hbyte
  obtain ⟨hop, -⟩ := (Microcode.decode_ensures machine.core _).of_completes hdecode
  have hread : machine.bus.answer (machine.core.get .ip) .readByte = (.ok byte, bus₁) := hanswer
  rw [opcode?, hm, if_neg (by decide), hread, hop]

/-- A step that does not get hold of its instruction has only fetched, up to the first fetch that
    failed. -/
theorem follows_of_instruction?_eq_none (hm : machine.halted = false)
    (hi : machine.instruction? = none) :
    ∃ op fault, (machine.opcode? = none ∨ machine.opcode? = some op) ∧
      machine.step.1 = .error fault ∧
      Follows (op.fetches (machine.core.get .ip)) machine.trace (.error fault) := by
  obtain ⟨op, hop, hfollows⟩ := follows_fetchInstruction hm
  have hresult := Microcode.eval_instruction machine.core machine.bus
  have htrace := Microcode.trace_instruction machine.core machine.bus
  rw [instruction?, hm, if_neg (by decide)] at hi
  generalize (Microcode.fetchInstruction machine.core).eval machine.bus = outcome at *
  obtain ⟨fault | ⟨i, core⟩, bus⟩ := outcome
  · rw [trace_of_not_halted hm, htrace, List.append_nil]
    exact ⟨op, fault, hop, (result_step hm).trans hresult, hfollows⟩
  · cases hi

/-- A step ends as what is left to do of its instruction on the bus that the fetches have left. -/
theorem result_of_fetch {i : Instruction} {core : Core} {bus : Bus δ} (hm : machine.halted = false)
    (hfetch : Microcode.fetchInstruction.Completes machine.core machine.bus i core bus) :
    machine.step.1 = ((Microcode.perform (machine.core.get .ip) i core).eval bus).1.map
      fun _ => i.opcode == .halt := by
  unfold Microcode.Completes at hfetch
  rw [result_step hm, Microcode.eval_instruction, hfetch]

/-- A step that has fetched its instruction does what is left to do of it. -/
theorem split_of_instruction?_eq_some {i : Instruction} (hi : machine.instruction? = some i) :
    ∃ (bus : Bus δ) (fetched : List Event),
      Follows (i.opcode.fetches (machine.core.get .ip)) fetched (.ok ()) ∧
      machine.trace = fetched ++
        (Microcode.perform (machine.core.get .ip) i (machine.core.advanced i.length)).trace bus ∧
      machine.step.1 =
        ((Microcode.perform (machine.core.get .ip) i (machine.core.advanced i.length)).eval bus).1.map
          fun _ => i.opcode == .halt := by
  obtain ⟨hm, bus, hfetch⟩ := instruction?_eq_some_iff.mp hi
  obtain ⟨op, hop, hfollows⟩ := follows_fetchInstruction hm
  obtain rfl : i.opcode = op := by
    rw [opcode?_of_instruction? hi] at hop
    simpa using hop
  have hresult := result_of_fetch hm hfetch
  have htrace := Microcode.trace_instruction machine.core machine.bus
  unfold Microcode.Completes at hfetch
  rw [hfetch] at hfollows htrace
  exact ⟨bus, _, hfollows, (trace_of_not_halted hm).trans htrace, hresult⟩

/-- A step that fetches one operand after the other while it goes on is the same as one that fetches
    all of them first. If an operand cannot be fetched, the step fails with the fault of that fetch,
    and the fetches up to it are all that it has asked of the devices. -/
theorem step_eq_stepDecoded (machine : Machine δ) :
    machine.step = machine.stepDecoded ∧
      ∀ byte bus fault bus', machine.halted = false →
        machine.bus.answer (machine.core.get .ip) .readByte = (.ok byte, bus) →
        ((Opcode.ofByte byte).format.fetch (machine.core.get .ip + 1)).eval bus =
          (.error fault, bus') →
        machine.step.1 = .error fault ∧
          Follows ((Opcode.ofByte byte).fetches (machine.core.get .ip)) machine.trace
            (.error fault) := by
  refine ⟨step_eq_fetchFirst machine, fun byte bus fault bus' hm hanswer hfetch => ?_⟩
  have hfetch' : (Microcode.fetchInstruction machine.core).eval machine.bus =
      (.error fault, bus') := by
    have hread : Device.answer machine.bus (machine.core.get .ip) .readByte = (.ok byte, bus) :=
      hanswer
    rw [Microcode.fetchInstruction_apply, BusProgram.eval, hread]
    dsimp only
    rw [BusProgram.eval_bind_done, hfetch]
    rfl
  have hop : machine.opcode? = some (Opcode.ofByte byte) := by
    rw [opcode?, hm, if_neg (by decide), hanswer]
  have hi : machine.instruction? = none := by
    rw [instruction?, hm, if_neg (by decide), hfetch']
  have hstep : machine.step.1 = .error fault := by
    rw [result_step hm, Microcode.eval_instruction, hfetch']
  obtain ⟨op, fault', hop', hstep', hfollows⟩ := follows_of_instruction?_eq_none hm hi
  obtain rfl : Opcode.ofByte byte = op := by
    rw [hop] at hop'
    simpa using hop'
  obtain rfl : fault = fault' := Except.error.inj (hstep.symm.trans hstep')
  exact ⟨hstep, hfollows⟩

/-- A machine whose program ends before the last operand of its only instruction, a load. -/
def cutOff : Machine Ram := loaded #[0x1d, 0, 0, 2]

theorem follows_cutOff :
    cutOff.step = cutOff.stepDecoded ∧ cutOff.step.1 = .error (.outOfBounds 4 4) ∧
      Follows (Opcode.loadIndexed.fetches 0) cutOff.trace (.error (.outOfBounds 4 4)) := by
  have hanswer : cutOff.bus.answer (cutOff.core.get .ip) .readByte = (.ok 0x1d, cutOff.bus) := rfl
  have hfetch : ((Opcode.ofByte 0x1d).format.fetch (cutOff.core.get .ip + 1)).eval cutOff.bus =
    (.error (.outOfBounds 4 4), cutOff.bus) := rfl
  have hlaw := step_eq_stepDecoded cutOff
  exact ⟨hlaw.1, hlaw.2 0x1d cutOff.bus (.outOfBounds 4 4) cutOff.bus rfl hanswer hfetch⟩

end Machine

end WordMachine
