import WordMachine.Proofs.Fetching
import WordMachine.Proofs.LogLines
import WordMachine.Proofs.Running

/-!
# The log of a run

What a machine logs while it makes steps. A program logs some entries before it fails, and only calls,
returns and bytes without a meaning have an entry in their program behind that of the fetch: the call
ahead of its accesses, the return behind all of them. The entry of a halt is added by the step itself.

* `toList_log_run`, `entries_bind`: what a program logs, apart from what is in the log already.
* `perform_silent`: the instructions that log nothing once they are fetched.
* `report_eq`: what one step logs.
* `driven_eq_after`, `toList_log_after`: what any number of steps and runs log, by induction on the
  steps that they make.
* `halts_step`, `halts_of_uses`: a machine has logged one more halt than the machine that it came from
  exactly if it is halted and the other one was not.
* `faithfulLog`: the log as a trace of what a machine did.
-/

namespace WordMachine

variable {α β δ : Type}

namespace BusProgram

section

variable [Device δ]

/-- What a program logs on a device, up to its end or to the access that fails. -/
def entries : BusProgram α → δ → List LogEntry
  | done _, _ => []
  | fault _, _ => []
  | access address request next, device =>
    match Device.answer device address request with
    | (.ok reply, device) => (next reply).entries device
    | (.error _, _) => []
  | log entry next, device => entry :: next.entries device

/-- A run adds to the log what its program logs. -/
theorem toList_log_run (p : BusProgram α) (device : δ) (before : Array LogEntry) :
    (p.run device before).log.toList = before.toList ++ p.entries device := by
  -- a program never looks at the log, so the induction is for any log before it
  induction p generalizing device before with
  | done result => exact (List.append_nil _).symm
  | fault f => exact (List.append_nil _).symm
  | access address request next ih =>
    rw [run, entries]
    generalize Device.answer device address request = answer
    obtain ⟨f | reply, device'⟩ := answer
    · exact (List.append_nil _).symm
    · exact ih reply device' before
  | log entry next ih =>
    rw [run, entries, ih, Array.toList_push, List.append_assoc, List.singleton_append]

/-- What follows a program logs its entries behind those of the program, unless that has failed. -/
theorem entries_bind (p : BusProgram α) (next : α → BusProgram β) (device : δ) :
    (p.bind next).entries device = p.entries device ++
      match p.eval device with
      | (.ok a, device) => (next a).entries device
      | (.error _, _) => [] := by
  induction p generalizing device with
  | done result => rfl
  | fault f => rfl
  | access address request rest ih =>
    rw [bind, entries, entries, eval]
    generalize Device.answer device address request = answer
    obtain ⟨f | reply, device'⟩ := answer
    · rfl
    · exact ih reply device'
  | log entry next ih => exact congrArg _ (ih device)

end

/-! ## Silence -/

/-- A program logs nothing, whatever the replies. -/
def Silent : BusProgram α → Prop
  | done _ => True
  | fault _ => True
  | access _ _ next => ∀ reply, (next reply).Silent
  | log _ _ => False

theorem Silent.bind {p : BusProgram α} {next : α → BusProgram β} (hp : p.Silent)
    (hn : ∀ a, (next a).Silent) : (p.bind next).Silent := by
  induction p with
  | done result => exact hn result
  | fault f => trivial
  | access address request rest ih => exact fun reply => ih reply (hp reply)
  | log entry next => cases hp

theorem Silent.entries_eq [Device δ] {p : BusProgram α} (hp : p.Silent) (device : δ) :
    p.entries device = [] := by
  induction p generalizing device with
  | done result => rfl
  | fault f => rfl
  | access address request next ih =>
    rw [entries]
    split
    · exact ih _ (hp _) _
    · rfl
  | log entry next => cases hp

end BusProgram

theorem Format.fetch_silent (format : Format) (address : Word) : (format.fetch address).Silent := by
  induction format generalizing address with
  | nil => trivial
  | cons field rest ih => exact fun _ => (ih (address + field.width)).bind fun _ => trivial

namespace Microcode

/-- Microcode logs nothing. -/
def Silent (code : Microcode α) : Prop := ∀ core, (code core).Silent

theorem Silent.bind {code : Microcode α} {next : α → Microcode β} (hc : code.Silent)
    (hn : ∀ a, (next a).Silent) : (code >>= next).Silent :=
  fun core => (hc core).bind fun r => hn r.1 r.2

/-- Microcode that only works on the core logs nothing. -/
theorem silent_of_done {code : Microcode α} {f : Core → α × Core}
    (h : ∀ core, code core = .done (f core)) : code.Silent := by
  intro core
  rw [h]
  trivial

theorem silent_pure (a : α) : (pure a : Microcode α).Silent := silent_of_done fun _ => rfl

theorem silent_get (r : Register) : (get r).Silent := silent_of_done fun _ => rfl

theorem silent_set (r : Register) (word : Word) : (set r word).Silent := silent_of_done fun _ => rfl

theorem silent_access (address : Word) (request : Request) : (access address request).Silent :=
  fun _ _ => trivial

theorem silent_check : ∀ e : Except Fault α, (check e).Silent
  | .ok a => silent_pure a
  | .error _ => fun _ => trivial

theorem silent_forM {l : List α} {body : α → Microcode Unit} (h : ∀ a, (body a).Silent) :
    (l.forM body).Silent := by
  induction l with
  | nil => exact silent_pure ()
  | cons a l ih => exact (h a).bind fun _ => ih

theorem Silent.set {code : Microcode Word} (hc : code.Silent) (r : Register) :
    (do set r (← code) : Microcode Unit).Silent :=
  hc.bind fun word => silent_set r word

theorem silent_value (operand : Operand) : (value operand).Silent :=
  silent_of_done (value_apply operand)

theorem push_silent (word : Word) : (push word).Silent :=
  (silent_get .sp).bind fun sp => (silent_access sp (.writeWord word)).bind fun _ =>
    silent_of_done fun _ => rfl

theorem pop_silent : pop.Silent := by
  have hcore : Microcode.core.Silent := silent_of_done fun _ => rfl
  have hset : ∀ core, (setCore core).Silent := fun _ => silent_of_done fun _ => rfl
  exact hcore.bind fun core => (silent_check core.popped).bind fun core => (hset core).bind fun _ =>
    (silent_get .sp).bind fun sp => silent_access sp .readWord

theorem drop_silent : ∀ n, (drop n).Silent
  | 0 => silent_pure ()
  | n + 1 => pop_silent.bind fun _ => drop_silent n

theorem probe_silent (address : Word) : ∀ n, (probe address n).Silent
  | 0 => silent_pure ()
  | n + 1 => (silent_access address .readWord).bind fun _ => probe_silent (address - 2) n

theorem silent_setFrameSize (size : Word) : (setFrameSize size).Silent :=
  silent_of_done fun _ => rfl

theorem enter_silent : enter.Silent := by
  have hsize : frameSize.Silent := silent_of_done fun _ => rfl
  exact (silent_get .sp).bind fun sp => (probe_silent sp frameWords).bind fun _ =>
    (silent_forM fun r => (silent_get r).bind push_silent).bind fun _ =>
      (silent_get .ip).bind fun ip => (push_silent ip).bind fun _ =>
        hsize.bind fun size => (push_silent (size + 2)).bind fun _ =>
          (silent_get .sp).bind fun sp => (silent_set .fp sp).bind fun _ => silent_setFrameSize 0

theorem leave_silent : leave.Silent :=
  (silent_get .fp).bind fun fp => (silent_set .sp fp).bind fun _ =>
    pop_silent.bind fun size => (silent_setFrameSize size).bind fun _ =>
      pop_silent.bind fun ip => (silent_set .ip ip).bind fun _ =>
        (silent_forM fun r => pop_silent.set r).bind fun _ =>
          pop_silent.bind fun count => (drop_silent count.toNat).bind fun _ =>
            silent_set .fp (fp + size)

end Microcode

/-! ## Instructions -/

/-- The entry of a machine that has halted. -/
def LogEntry.isHalt : LogEntry → Bool
  | halted _ => true
  | _ => false

/-- Whether there is an entry for an instruction in its program, besides that of its fetch. -/
def Instruction.logs : Instruction → Bool
  | call _ => true
  | ret => true
  | unknown _ => true
  | _ => false

namespace Microcode

/-- Calls, returns and bytes without a meaning are the only instructions that log something. -/
theorem perform_silent {i : Instruction} (hi : i.logs = false) (address : Word) :
    (perform address i).Silent := by
  cases i with
  | move source target => exact (silent_value source).set target
  | store source target =>
    exact (silent_value source).bind fun word => silent_access target (.writeWord word)
  | load source target => exact (silent_access source .readWord).set target
  | loadIndirect pointer target =>
    exact (silent_get pointer).bind fun source => (silent_access source .readWord).set target
  | loadIndexed base offset target =>
    exact (silent_get offset).bind fun distance =>
      (silent_check (effectiveAddress base distance)).bind fun source =>
        (silent_access source .readWord).set target
  | arithmetic operation first second =>
    exact (silent_value first).bind fun a => (silent_get second).bind fun b =>
      silent_set .acc (operation.apply a b)
  | literalMinus subtrahend minuend =>
    exact (silent_get subtrahend).bind fun word => silent_set .acc (minuend - word)
  | unary operation target =>
    exact (silent_get target).bind fun word => silent_set target (operation.apply word)
  | shift direction target amount =>
    exact (silent_get target).bind fun a => (silent_value amount).bind fun b =>
      silent_set target (direction.apply a b)
  | bitwise operation target second =>
    exact (silent_get target).bind fun a => (silent_value second).bind fun b =>
      silent_set target (operation.apply a b)
  | jump condition compared target =>
    have hcompared : (comparand address compared).Silent := by
      unfold comparand
      split
      · exact silent_pure _
      · exact silent_value compared
    refine hcompared.bind fun a => (silent_get .acc).bind fun b => ?_
    split
    · exact silent_set .ip target
    · exact silent_pure ()
  | push source => exact (silent_value source).bind push_silent
  | pop target => exact pop_silent.set target
  | halt => exact silent_pure ()
  | call | ret | unknown => cases hi

section

variable [Device δ]

/-- A call logs its entry before it asks whether there is room for its frame. -/
theorem entries_call (address : Word) (operand : Operand) (core : Core) (device : δ) :
    (perform address (.call operand) core).entries device =
      [.called (core.valueOf operand) operand.register? address] := by
  have hrest : (enter >>= fun _ => set .ip (core.valueOf operand) : Microcode Unit).Silent :=
    enter_silent.bind fun _ => silent_set .ip (core.valueOf operand)
  change BusProgram.entries ((value operand core).bind _) device = _
  -- the entry comes behind the value of the target, and all that can fail comes behind the entry
  rw [value_apply]
  exact congrArg _ ((hrest core).entries_eq device)

/-- A return logs its entry when it has loaded all that it restores. -/
theorem entries_ret (address : Word) (core : Core) (device : δ) :
    (perform address .ret core).entries device =
      match (perform address .ret core).eval device with
      | (.ok (_, core'), _) => [.returned (core'.get .ip)]
      | (.error _, _) => [] := by
  change BusProgram.entries ((leave core).bind fun r =>
      .log (.returned (r.2.get .ip)) (.done ((), r.2))) device =
    match BusProgram.eval ((leave core).bind fun r =>
      .log (.returned (r.2.get .ip)) (.done ((), r.2))) device with
    | (.ok (_, core'), _) => [.returned (core'.get .ip)]
    | (.error _, _) => []
  -- nothing that can fail comes behind the entry, so it is there if and only if the return succeeds
  rw [BusProgram.entries_bind, (leave_silent core).entries_eq, List.nil_append, BusProgram.eval_bind]
  generalize (leave core).eval device = outcome
  obtain ⟨_ | _, device'⟩ := outcome <;> rfl

/-- An instruction logs its opcode when that is fetched, and the rest when all of it is fetched. -/
theorem entries_instruction (core : Core) (device : δ) :
    (instruction core).entries device =
      match Device.answer device (core.get .ip) .readByte with
      | (.ok byte, _) =>
        .fetched (core.get .ip) (Opcode.ofByte byte) ::
          match (fetchInstruction core).eval device with
          | (.ok (i, core'), device) => (perform (core.get .ip) i core').entries device
          | (.error _, _) => []
      | (.error _, _) => [] := by
  rw [instruction_apply, fetchInstruction_apply, BusProgram.entries, BusProgram.eval]
  generalize Device.answer device (core.get .ip) .readByte = reply
  obtain ⟨f | byte, device₁⟩ := reply
  · rfl
  · dsimp only
    rw [BusProgram.entries, BusProgram.entries_bind, BusProgram.eval_bind_done,
      ((Opcode.ofByte byte).format.fetch_silent _).entries_eq, List.nil_append]
    congr 1
    generalize ((Opcode.ofByte byte).format.fetch (core.get .ip + 1)).eval device₁ = fetched
    obtain ⟨f | operands, device₂⟩ := fetched
    · rfl
    · dsimp only
      rw [BusProgram.entries_bind]
      dsimp only [Except.map]
      generalize (perform _ _ _).eval device₂ = performed
      obtain ⟨_ | _, device₃⟩ := performed <;> exact List.append_nil _

end

end Microcode

/-! ## Steps -/

namespace Machine

variable [Device δ] {machine machine' : Machine δ} {op : Opcode} {i : Instruction}

/-- The entries that the next step adds to the log. -/
def report (machine : Machine δ) : List LogEntry := machine.step.2.log.toList.drop machine.log.size

/-- What the next step logs behind the entry of its opcode. -/
def remarks (machine : Machine δ) : List LogEntry :=
  match machine.instruction? with
  | some (.call operand) =>
    [.called ((machine.core.advanced (Instruction.call operand).length).valueOf operand)
      operand.register? (machine.core.get .ip)]
  | some .ret =>
    if machine.step.1 = .ok false then [.returned (machine.step.2.core.get .ip)] else []
  | some .halt => [.halted (machine.core.get .ip + 1)]
  | some (.unknown byte) => [.skipped byte (machine.core.get .ip)]
  | _ => []

/-- A step halts a machine if it performs a halt instruction, which always succeeds. -/
theorem step_eq_ok_true_iff (hm : machine.halted = false) :
    machine.step.1 = .ok true ↔ machine.instruction? = some .halt := by
  constructor
  · intro h
    exact instruction?_of_halted_step hm (halted_of_step_eq_ok h)
  · intro hi
    obtain ⟨-, bus, hfetch⟩ := instruction?_eq_some_iff.mp hi
    exact (step_of_performs hm hfetch (Microcode.completes_pure.mpr ⟨rfl, rfl, rfl⟩)).1

theorem toList_log_step (hm : machine.halted = false) :
    machine.step.2.log.toList = machine.log.toList ++
      ((Microcode.instruction machine.core).entries machine.bus ++
        if machine.step.1 = .ok true then [.halted (machine.step.2.core.get .ip)] else []) := by
  obtain ⟨core, bus, halted, log⟩ := machine
  cases hm
  have hlog := BusProgram.toList_log_run (Microcode.instruction core) bus log
  rw [step]
  generalize (Microcode.instruction core).run bus log = outcome at hlog ⊢
  obtain ⟨f | ⟨_ | _, core'⟩, bus', log'⟩ := outcome
  · exact hlog.trans (congrArg _ (List.append_nil _).symm)
  · exact hlog.trans (congrArg _ (List.append_nil _).symm)
  · rw [if_pos rfl, ← List.append_assoc, ← hlog]
    exact Array.toList_push

/-- What is logged by the program of an instruction when all of it is fetched. -/
def performed (machine : Machine δ) : List LogEntry :=
  match (Microcode.fetchInstruction machine.core).eval machine.bus with
  | (.ok (i, core), bus) => (Microcode.perform (machine.core.get .ip) i core).entries bus
  | (.error _, _) => []

/-- The entries of an instruction begin with that of its opcode. -/
theorem entries_eq (hm : machine.halted = false) :
    (Microcode.instruction machine.core).entries machine.bus =
      match machine.opcode? with
      | some op => .fetched (machine.core.get .ip) op :: machine.performed
      | none => [] := by
  rw [Microcode.entries_instruction, opcode?, hm, if_neg (by decide), Bus.device_answer,
    performed]
  generalize machine.bus.answer (machine.core.get .ip) .readByte = reply
  generalize (Microcode.fetchInstruction machine.core).eval machine.bus = fetched
  obtain ⟨_ | byte, bus⟩ := reply
  · rfl
  · obtain ⟨_ | ⟨i, core⟩, bus'⟩ := fetched <;> rfl

/-- A return that was fetched logs its entry if the step succeeds. -/
theorem entries_of_ret {bus : Bus δ} (hm : machine.halted = false)
    (hfetch : Microcode.fetchInstruction.Completes machine.core machine.bus .ret
      (machine.core.advanced Instruction.ret.length) bus) :
    (Microcode.perform (machine.core.get .ip) .ret
        (machine.core.advanced Instruction.ret.length)).entries bus =
      if machine.step.1 = .ok false then [.returned (machine.step.2.core.get .ip)] else [] := by
  have hresult := result_of_fetch hm hfetch
  have hsuccess := fun core bus' => @step_of_performs _ _ machine .ret bus bus' core hm hfetch
  unfold Microcode.Completes at hsuccess
  rw [Microcode.entries_ret]
  generalize (Microcode.perform (machine.core.get .ip) .ret _).eval bus = outcome at *
  obtain ⟨fault | ⟨⟨⟩, core⟩, bus'⟩ := outcome
  · have hfault : machine.step.1 = .error fault := hresult
    rw [if_neg (by simp [hfault])]
  · obtain ⟨hok, hcore, -⟩ := hsuccess core bus' rfl
    have hreturned : machine.step.1 = .ok false := hok
    rw [if_pos hreturned, hcore]

/-- What is logged behind the entry of the opcode, by the program or by the step itself. -/
theorem remarks_eq (hm : machine.halted = false) :
    machine.remarks =
      machine.performed ++
        if machine.step.1 = .ok true then [.halted (machine.step.2.core.get .ip)] else [] := by
  cases hi : machine.instruction? with
  | none =>
    obtain ⟨-, fault, -, hstep, -⟩ := follows_of_instruction?_eq_none hm hi
    rw [remarks, hi, hstep, if_neg (by simp), performed]
    rw [instruction?, hm, if_neg (by decide)] at hi
    generalize (Microcode.fetchInstruction machine.core).eval machine.bus = outcome at hi ⊢
    obtain ⟨_ | ⟨i, core⟩, bus⟩ := outcome
    · rfl
    · cases hi
  | some i =>
    obtain ⟨-, bus, hfetch⟩ := instruction?_eq_some_iff.mp hi
    have heval : (Microcode.fetchInstruction machine.core).eval machine.bus =
      (.ok (i, machine.core.advanced i.length), bus) := hfetch
    have hend : machine.step.1 = .ok true ↔ i = .halt := by
      rw [step_eq_ok_true_iff hm, hi, Option.some.injEq]
    rw [performed, heval, remarks, hi]
    -- a halt is logged by the step, a call, a return and an unknown byte by their programs
    cases i with
    | call operand =>
      rw [if_neg (hend.not.mpr (by simp))]
      simp only [Microcode.entries_call, List.append_nil]
    | ret =>
      rw [if_neg (hend.not.mpr (by simp)), List.append_nil]
      exact (entries_of_ret hm hfetch).symm
    | halt =>
      have hcore := (step_of_performs hm hfetch (Microcode.completes_pure.mpr ⟨rfl, rfl, rfl⟩)).2.1
      rw [if_pos (hend.mpr rfl), hcore, Core.get_advanced, if_pos rfl]
      rfl
    | unknown byte =>
      rw [if_neg (hend.not.mpr (by simp)), List.append_nil]
      rfl
    | _ =>
      rw [if_neg (hend.not.mpr (by simp)), List.append_nil]
      exact ((Microcode.perform_silent rfl _ _).entries_eq bus).symm

/-- A step logs the entry of its opcode and its remarks, or nothing if it does not get hold of an
    opcode. -/
theorem report_eq (machine : Machine δ) :
    machine.step.2.log.toList = machine.log.toList ++ machine.report ∧
      machine.report =
        match machine.opcode? with
        | some op => .fetched (machine.core.get .ip) op :: machine.remarks
        | none => [] := by
  suffices hlog : machine.step.2.log.toList = machine.log.toList ++
      match machine.opcode? with
      | some op => .fetched (machine.core.get .ip) op :: machine.remarks
      | none => [] by
    have hreport := congrArg (List.drop machine.log.size) hlog
    rw [← Array.length_toList, List.drop_left, Array.length_toList] at hreport
    rw [report, hreport]
    exact ⟨hlog, rfl⟩
  cases hm : machine.halted with
  | true => rw [step_of_halted hm, opcode?, if_pos hm, List.append_nil]
  | false =>
    rw [toList_log_step hm, entries_eq hm]
    cases hop : machine.opcode? with
    | none =>
      have hi : machine.instruction? ≠ some .halt := fun hi => by
        rw [opcode?_of_instruction? hi] at hop
        cases hop
      rw [if_neg ((step_eq_ok_true_iff hm).not.mpr hi)]
      rfl
    | some op =>
      rw [remarks_eq hm]
      rfl

theorem remarks_of_opcode?_eq_none (hop : machine.opcode? = none) : machine.remarks = [] := by
  cases hi : machine.instruction? with
  | none => rw [remarks, hi]
  | some i =>
    rw [opcode?_of_instruction? hi] at hop
    cases hop

/-- What a step reports is the opcode or one of the remarks. -/
theorem mem_report_iff {entry : LogEntry} :
    entry ∈ machine.report ↔
      (∃ op, machine.opcode? = some op ∧ entry = .fetched (machine.core.get .ip) op) ∨
        entry ∈ machine.remarks := by
  rw [(report_eq machine).2]
  cases hop : machine.opcode? with
  | none => simp [remarks_of_opcode?_eq_none hop]
  | some op => simp

/-- What the next step logs, whether it succeeds or not. -/
structure LogsStep (machine : Machine δ) : Prop where
  /-- the entries of the step are put behind those that are there -/
  grows : machine.step.2.log.toList = machine.log.toList ++ machine.report
  /-- a machine that has halted and a step that cannot fetch its opcode log nothing -/
  silent : machine.opcode? = none → machine.report = []
  /-- any other step logs the address and the opcode first, and then at most one entry of another
      level -/
  traced : ∀ op, machine.opcode? = some op → ∃ remarks,
    machine.report = .fetched (machine.core.get .ip) op :: remarks ∧ remarks.length ≤ 1 ∧
      ∀ entry ∈ remarks, entry.level ≠ .trace
  /-- a call whose operand was fetched, even if there is no room for its frame -/
  called : ∀ target via source, .called target via source ∈ machine.report ↔
    ∃ operand, machine.instruction? = some (.call operand) ∧
      target = (machine.core.advanced (Instruction.call operand).length).valueOf operand ∧
      via = operand.register? ∧ source = machine.core.get .ip
  /-- a return that succeeds -/
  returned : ∀ target, .returned target ∈ machine.report ↔
    machine.opcode? = some .ret ∧ (∃ b, machine.step.1 = .ok b) ∧
      target = machine.step.2.core.get .ip
  /-- a byte without a meaning -/
  skipped : ∀ byte address, .skipped byte address ∈ machine.report ↔
    machine.opcode? = some (.unknown byte) ∧ address = machine.core.get .ip
  /-- a step that sets the halt flag -/
  halted : ∀ address, .halted address ∈ machine.report ↔
    machine.halted = false ∧ machine.step.2.halted = true ∧ address = machine.core.get .ip + 1

theorem length_remarks_le (machine : Machine δ) : machine.remarks.length ≤ 1 := by
  unfold remarks
  split
  case h_2 => split <;> simp
  all_goals simp

theorem level_of_mem_remarks {entry : LogEntry} (h : entry ∈ machine.remarks) :
    entry.level ≠ .trace := by
  unfold remarks at h
  split at h
  case h_2 =>
    split at h
    · cases List.mem_singleton.mp h
      simp [LogEntry.level]
    · cases h
  case h_5 => cases h
  all_goals
    cases List.mem_singleton.mp h
    simp [LogEntry.level]

theorem mem_remarks_called_iff {target source : Word} {via : Option Register} :
    .called target via source ∈ machine.remarks ↔
      ∃ operand, machine.instruction? = some (.call operand) ∧
        target = (machine.core.advanced (Instruction.call operand).length).valueOf operand ∧
        via = operand.register? ∧ source = machine.core.get .ip := by
  unfold remarks
  split <;> simp_all

theorem mem_remarks_returned_iff {target : Word} :
    .returned target ∈ machine.remarks ↔
      machine.instruction? = some .ret ∧ machine.step.1 = .ok false ∧
        target = machine.step.2.core.get .ip := by
  unfold remarks
  split <;> simp_all

theorem mem_remarks_skipped_iff {byte : Byte} {address : Word} :
    .skipped byte address ∈ machine.remarks ↔
      machine.instruction? = some (.unknown byte) ∧ address = machine.core.get .ip := by
  unfold remarks
  split <;> simp_all [eq_comm (a := byte)]

theorem mem_remarks_halted_iff {address : Word} :
    .halted address ∈ machine.remarks ↔
      machine.instruction? = some .halt ∧ address = machine.core.get .ip + 1 := by
  unfold remarks
  split <;> simp_all

/-- An opcode without operands is the whole instruction. -/
theorem instruction?_of_opcode? (hi : i.opcode.format = []) (hop : machine.opcode? = some i.opcode) :
    machine.instruction? = some i := by
  have hm := halted_of_opcode? hop
  rw [opcode?, hm, if_neg (by decide)] at hop
  rw [instruction?, hm, if_neg (by decide), Microcode.fetchInstruction_apply, BusProgram.eval,
    Bus.device_answer]
  generalize machine.bus.answer (machine.core.get .ip) .readByte = reply at hop ⊢
  obtain ⟨_ | byte, bus⟩ := reply
  · cases hop
  · have hbyte : Opcode.ofByte byte = i.opcode := Option.some.inj hop
    dsimp only
    rw [hbyte]
    cases i with
    | ret | halt | unknown => rfl
    | _ => cases hi

theorem instruction?_eq_some_iff_opcode? (hi : i.opcode.format = []) :
    machine.instruction? = some i ↔ machine.opcode? = some i.opcode :=
  ⟨opcode?_of_instruction?, instruction?_of_opcode? hi⟩

/-- The halt flag goes up exactly in the step of a halt instruction. -/
theorem halts_iff : machine.halted = false ∧ machine.step.2.halted = true ↔
    machine.instruction? = some .halt := by
  constructor
  · rintro ⟨hm, hnext⟩
    exact instruction?_of_halted_step hm hnext
  · intro hi
    obtain ⟨hm, -⟩ := instruction?_eq_some_iff.mp hi
    exact ⟨hm, halted_of_step_eq_ok ((step_eq_ok_true_iff hm).mpr hi)⟩

/-- A return that succeeds does not halt. -/
theorem step_eq_ok_iff_of_ret (hi : machine.instruction? = some .ret) :
    (∃ b, machine.step.1 = .ok b) ↔ machine.step.1 = .ok false := by
  refine ⟨?_, fun h => ⟨false, h⟩⟩
  rintro ⟨_ | _, h⟩
  · exact h
  · obtain ⟨hm, -⟩ := instruction?_eq_some_iff.mp hi
    have hhalt := (step_eq_ok_true_iff hm).mp h
    rw [hi] at hhalt
    cases hhalt

/-- Every step logs what is said of it. -/
theorem logsStep (machine : Machine δ) : machine.LogsStep where
  grows := (report_eq machine).1
  silent hop := by rw [(report_eq machine).2, hop]
  traced op hop := by
    refine ⟨machine.remarks, ?_, length_remarks_le machine, fun _ => level_of_mem_remarks⟩
    rw [(report_eq machine).2, hop]
  called target via source := by
    rw [mem_report_iff, mem_remarks_called_iff]
    exact or_iff_right (by simp)
  returned target := by
    rw [mem_report_iff, or_iff_right (by simp), mem_remarks_returned_iff]
    have hret := @instruction?_eq_some_iff_opcode? δ _ machine .ret rfl
    constructor
    · rintro ⟨hi, hstep, htarget⟩
      exact ⟨hret.mp hi, ⟨false, hstep⟩, htarget⟩
    · rintro ⟨hop, hstep, htarget⟩
      exact ⟨hret.mpr hop, (step_eq_ok_iff_of_ret (hret.mpr hop)).mp hstep, htarget⟩
  skipped byte address := by
    rw [mem_report_iff, or_iff_right (by simp), mem_remarks_skipped_iff,
      instruction?_eq_some_iff_opcode? rfl]
    rfl
  halted address := by
    rw [mem_report_iff, or_iff_right (by simp), mem_remarks_halted_iff, ← halts_iff, and_assoc]

/-! ## Runs -/

/-- A call that makes a machine go on. -/
inductive Drive where
  | step
  | run (fuel : Nat)
  | runFor (steps : Nat)
deriving DecidableEq, Repr

/-- The number of steps that a loop of at most `n` steps makes. -/
def stepCount : Nat → Machine δ → Nat
  | 0, _ => 0
  | n + 1, machine => if machine.step.1 = .ok false then stepCount n machine.step.2 + 1 else 1

/-- The machine after a call, whatever its result. -/
def drive (machine : Machine δ) : Drive → Machine δ
  | .step => machine.step.2
  | .run fuel => (machine.run fuel).2
  | .runFor steps => (machine.runFor steps).2

/-- The number of steps that a call makes. -/
def driveCount (machine : Machine δ) : Drive → Nat
  | .step => 1
  | .run fuel => machine.stepCount fuel
  | .runFor steps => machine.stepCount steps

/-- The machine after calls one after the other, whether they succeed or not. -/
def driven : Machine δ → List Drive → Machine δ
  | machine, [] => machine
  | machine, d :: drives => driven (machine.drive d) drives

/-- The number of steps that calls one after the other make. -/
def drivenCount : Machine δ → List Drive → Nat
  | _, [] => 0
  | machine, d :: drives => machine.driveCount d + drivenCount (machine.drive d) drives

/-- A loop is behind the steps it makes. -/
theorem loop_eq_after (machine : Machine δ) (n : Nat) :
    (machine.run n).2 = machine.after (machine.stepCount n) ∧
      (machine.runFor n).2 = machine.after (machine.stepCount n) := by
  induction n generalizing machine with
  | zero => exact ⟨rfl, rfl⟩
  | succ n ih =>
    rw [stepCount]
    -- both loops go on behind `.ok false` and stop behind every other result
    split
    next h =>
      rw [run_succ_of_ok h, runFor_succ_of_ok h, Nat.add_comm, ← after_after]
      exact ih machine.step.2
    next h =>
      rw [run_succ_of_ne h, runFor_succ_of_ne h]
      exact ⟨rfl, rfl⟩

theorem drive_eq_after (machine : Machine δ) (d : Drive) :
    machine.drive d = machine.after (machine.driveCount d) := by
  cases d with
  | step => rfl
  | run fuel => exact (loop_eq_after machine fuel).1
  | runFor steps => exact (loop_eq_after machine steps).2

/-- Calls one after the other are behind the steps that all of them make. -/
theorem driven_eq_after (machine : Machine δ) (drives : List Drive) :
    machine.driven drives = machine.after (machine.drivenCount drives) := by
  induction drives generalizing machine with
  | nil => rfl
  | cons d drives ih =>
    rw [driven, ih, drivenCount, ← after_after, ← drive_eq_after]

/-- What the first `n` steps log. -/
def reports (machine : Machine δ) (n : Nat) : List LogEntry :=
  (List.range n).flatMap fun k => (machine.after k).report

theorem reports_succ (machine : Machine δ) (n : Nat) :
    machine.reports (n + 1) = machine.reports n ++ (machine.after n).report := by
  rw [reports, reports, List.range_succ, List.flatMap_append, List.flatMap_singleton]

/-- The log of some steps has what each of them logs, one after the other. -/
theorem toList_log_after (machine : Machine δ) (n : Nat) :
    (machine.after n).log.toList = machine.log.toList ++ machine.reports n := by
  induction n with
  | zero => exact (List.append_nil _).symm
  | succ n ih =>
    rw [after_succ, (report_eq _).1, ih, reports_succ, List.append_assoc]

/-- The entry of the opcode that the next step fetches. -/
def fetchRecord? (machine : Machine δ) : Option LogEntry :=
  machine.opcode?.map (.fetched (machine.core.get .ip))

theorem filter_report (machine : Machine δ) :
    machine.report.filter (·.level = .trace) = machine.fetchRecord?.toList := by
  rw [(report_eq machine).2, fetchRecord?]
  cases hop : machine.opcode? with
  | none => rfl
  | some op =>
    have hremarks : machine.remarks.filter (·.level = .trace) = [] := by
      rw [List.filter_eq_nil_iff]
      intro entry hentry
      simpa using level_of_mem_remarks hentry
    rw [List.filter_cons_of_pos (by rfl), hremarks]
    rfl

/-- The entries of level `TRACE` are those of the opcodes that the steps fetch. -/
theorem filter_reports (machine : Machine δ) (n : Nat) :
    (machine.reports n).filter (·.level = .trace) =
      (List.range n).filterMap fun k => (machine.after k).fetchRecord? := by
  induction n with
  | zero => rfl
  | succ n ih =>
    rw [reports_succ, List.filter_append, ih, filter_report, List.range_succ, List.filterMap_append]
    rw [List.filterMap_cons]
    cases (machine.after n).fetchRecord? <;> rfl

/-! ## Halts -/

/-- The number of halts that a machine has logged. -/
def halts (machine : Machine δ) : Nat := machine.log.toList.countP LogEntry.isHalt

theorem countP_remarks (machine : Machine δ) :
    machine.remarks.countP LogEntry.isHalt = if machine.instruction? = some .halt then 1 else 0 := by
  unfold remarks
  split
  case h_2 h => split <;> simp [h, LogEntry.isHalt]
  case h_5 _ _ _ hhalt _ => rw [if_neg hhalt, List.countP_nil]
  all_goals
    rename_i h
    simp [h, LogEntry.isHalt]

/-- No other instruction changes the halt flag. -/
theorem halted_step_of_ne (hi : machine.instruction? ≠ some .halt) :
    machine.step.2.halted = machine.halted := by
  cases hm : machine.halted with
  | true => rw [step_of_halted hm, hm]
  | false =>
    cases hnext : machine.step.2.halted with
    | true => exact absurd (halts_iff.mp ⟨hm, hnext⟩) hi
    | false => rfl

/-- A step logs a halt if it sets the halt flag. -/
theorem halts_step (machine : Machine δ) :
    machine.step.2.halts + machine.halted.toNat = machine.halts + machine.step.2.halted.toNat := by
  have hreport : machine.step.2.halts =
      machine.halts + if machine.instruction? = some .halt then 1 else 0 := by
    rw [halts, (report_eq machine).1, List.countP_append, (report_eq machine).2, halts,
      ← countP_remarks]
    cases hop : machine.opcode? with
    | none => rw [remarks_of_opcode?_eq_none hop]
    | some op => rw [List.countP_cons_of_neg (by simp [LogEntry.isHalt])]
  by_cases hi : machine.instruction? = some .halt
  · obtain ⟨hm, hnext⟩ := halts_iff.mpr hi
    rw [hreport, if_pos hi, hm, hnext]
    rfl
  · rw [hreport, if_neg hi, halted_step_of_ne hi, Nat.add_zero]

theorem halts_after (machine : Machine δ) (n : Nat) :
    (machine.after n).halts + machine.halted.toNat =
      machine.halts + (machine.after n).halted.toNat := by
  induction n with
  | zero => rfl
  | succ n ih =>
    have hstep := halts_step (machine.after n)
    rw [after_succ]
    omega

/-- What is done with a machine logs no halts but those of its steps. -/
theorem Use.halts (h : machine.Use machine') :
    machine'.halts + machine.halted.toNat = machine.halts + machine'.halted.toNat := by
  rcases h.after_or_log with ⟨n, rfl⟩ | ⟨hsame, hlog⟩
  · exact halts_after machine n
  · suffices hhalts : machine'.halts = machine.halts by rw [hhalts, hsame]
    rcases hlog with hlog | ⟨entry, hlevel, hlog⟩
    · rw [Machine.halts, hlog, Machine.halts]
    · have hentry : entry.isHalt = false := by
        cases entry with
        | halted address => cases hlevel
        | _ => rfl
      rw [Machine.halts, hlog, Array.toList_push, List.countP_append, Machine.halts]
      simp [hentry]

/-- A machine has logged as many halts more as its halt flag went up. -/
theorem halts_of_uses (h : Relation.ReflTransGen Use machine machine') :
    machine'.halts + machine.halted.toNat = machine.halts + machine'.halted.toNat := by
  -- the halts less the halt flag are the same number at all machines on the way
  induction h with
  | refl => rfl
  | tail _ huse ih =>
    have hlast := huse.halts
    omega

/-! ## The laws -/

/-- What the log tells about a machine. -/
structure FaithfulLog (δ : Type) [Device δ] : Prop where
  /-- the entries of a step -/
  step : ∀ machine : Machine δ, machine.LogsStep
  /-- steps and runs in any order log what the steps log that they make, one after the other -/
  driven : ∀ (machine : Machine δ) drives,
    machine.driven drives = machine.after (machine.drivenCount drives) ∧
      (machine.driven drives).log.toList =
        machine.log.toList ++ machine.reports (machine.drivenCount drives)
  /-- the entries of level `TRACE` among these are those of the opcodes that the steps fetch, in the
      order of the steps -/
  traced : ∀ (machine : Machine δ) drives,
    (machine.reports (machine.drivenCount drives)).filter (·.level = .trace) =
      (List.range (machine.drivenCount drives)).filterMap fun k => (machine.after k).fetchRecord?
  /-- whatever is done with a machine, it logs a halt if its halt flag goes up -/
  halts : ∀ machine machine' : Machine δ, Relation.ReflTransGen Use machine machine' →
    machine'.halts + machine.halted.toNat = machine.halts + machine'.halted.toNat
  /-- that is once at most since it was new -/
  once : ∀ machine : Machine δ, Relation.ReflTransGen Use .initial machine →
    machine.halts = if machine.halted then 1 else 0
  /-- the lines of the log, with their levels, are those written out -/
  lines : ∀ (entry : LogEntry) line, line = entry.line ↔ entry.Says line
  /-- they say all that the entries hold -/
  wording : ∀ entry entry' : LogEntry, entry.line = entry'.line → entry = entry'

/-- The log is a faithful trace of what a machine did. -/
theorem faithfulLog (δ : Type) [Device δ] : FaithfulLog δ where
  step := logsStep
  driven machine drives := by
    rw [driven_eq_after]
    exact ⟨rfl, toList_log_after machine _⟩
  traced machine drives := filter_reports machine _
  halts _ _ huses := halts_of_uses huses
  once machine huses := by
    have hhalts := halts_of_uses huses
    have hnew : (initial : Machine δ).halts = 0 := rfl
    rw [hnew] at hhalts
    cases hm : machine.halted <;> simpa [hm, initial] using hhalts
  lines _ _ := LogEntry.says_iff.symm
  wording _ _ h := LogEntry.line_injective h

/-- A machine that calls a subroutine and halts, behind a byte without a meaning. -/
def calling : Machine Ram := loaded #[0, 0x17, 0, 0, 0x5e, 0, 9, 0xff, 0, 0x60]

/-- A step and a run make five steps together. They log what the machine does, and that it halts once. -/
theorem log_calling :
    calling.driven [.step, .run 9] = calling.after 5 ∧
      (calling.driven [.step, .run 9]).log.toList.map LogEntry.line =
        ["TRACE 0x0000: Unknown(0)", "DEBUG unknown opcode 0x00 at 0x0000, skipping",
          "TRACE 0x0001: PshLit", "TRACE 0x0004: CalLit", "DEBUG call 0x0009 from 0x0004",
          "TRACE 0x0009: Ret", "DEBUG return to 0x0007", "TRACE 0x0007: Hlt",
          "INFO halted at 0x0008"] ∧
      (calling.driven [.step, .run 9]).halts = 1 := by
  have hlaws := faithfulLog Ram
  refine ⟨?_, ?_, ?_⟩
  · have hcount : calling.drivenCount [.step, .run 9] = 5 := by decide +kernel
    rw [(hlaws.driven calling _).1, hcount]
  · have hentries : (calling.driven [.step, .run 9]).log.toList =
        [.fetched 0 (.unknown 0), .skipped 0 0, .fetched 1 (.push .literal),
          .fetched 4 (.call .literal), .called 9 none 4, .fetched 9 .ret, .returned 7,
          .fetched 7 .halt, .halted 8] := by
      decide +kernel
    rw [hentries]
    decide +kernel
  · have huses : Relation.ReflTransGen Use calling (calling.driven [.step, .run 9]) :=
      .tail (.single (.step calling)) (.run calling.step.2 9)
    have hhalted : (calling.driven [.step, .run 9]).halted = true := by decide +kernel
    have hnew : calling.halts = 0 ∧ calling.halted = false := ⟨rfl, rfl⟩
    have hhalts := hlaws.halts _ _ huses
    rw [hhalted, hnew.1, hnew.2] at hhalts
    simpa only [Bool.toNat_true, Bool.toNat_false, Nat.add_zero, Nat.zero_add] using hhalts

/-- A machine with a call that has no memory for its frame. -/
def cramped : Machine Ram := ⟨.initial, Bus.empty.map ⟨#[0, 0x5e, 0x12, 0x34]⟩ 0 3 true, false, #[]⟩

/-- The call is logged as often as it is tried. -/
example : (cramped.driven [.runFor 2, .run 9]).log.toList.map LogEntry.line =
    ["TRACE 0x0000: Unknown(0)", "DEBUG unknown opcode 0x00 at 0x0000, skipping",
      "TRACE 0x0001: CalLit", "DEBUG call 0x1234 from 0x0001",
      "TRACE 0x0001: CalLit", "DEBUG call 0x1234 from 0x0001"] := by
  decide +kernel

end Machine

end WordMachine
