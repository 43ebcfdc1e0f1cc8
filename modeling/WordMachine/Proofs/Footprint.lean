import WordMachine.Proofs.FrameCounter
import WordMachine.Proofs.Running
import WordMachine.Proofs.WriteOrder

/-!
# What an instruction touches

The footprint of a step that succeeds, on a bus of any devices. Which registers it may write is known
from the instruction alone (`Instruction.written`), and so is what it stores, from the registers. The
instruction pointer moves behind the instruction unless a jump is taken, a call or a return is made or
the instruction pointer is itself the register to write. A byte without a meaning does nothing else
than to move it.

* `perform_keeps_get`: a register that an instruction does not write keeps its value.
* `writes_of_step`: the writes of a step are those of `Instruction.stores`.
* `footprint_of_step`: all that one step changes.
* `crosses_of_read`: a row of bytes without a meaning, by induction on its length.
* `footprint`: both together.
-/

namespace WordMachine

variable {δ : Type}

namespace Instruction

/-! ## What is known before an instruction is performed -/

/-- The words that an instruction stores, with their addresses and in order, when its operands have
    been fetched. -/
def stores (core : Core) : Instruction → List (Word × Word)
  | store source target => [(target, core.valueOf source)]
  | push source => [(core.get .sp, core.valueOf source)]
  | call _ => (slots (core.get .sp) 10).zip core.frame
  | _ => []

/-- Where an instruction that was fetched at `address` goes on, if it is a jump that is taken or a
    call. -/
def target? (address : Word) (core : Core) : Instruction → Option Word
  | jump condition compared target =>
    if condition.holds (core.comparand address compared) (core.get .acc) then some target else none
  | call operand => some (core.valueOf operand)
  | _ => none

/-- The value that an instruction writes to the register that it names, on a device. -/
inductive Yields [Device δ] (core : Core) (device : δ) : Instruction → Word → Prop
  | move (source : Operand) (target : Register) :
      Yields core device (.move source target) (core.valueOf source)
  | load {source word : Word} {device' : δ} (target : Register)
      (h : Device.answer device source .readWord = (.ok word, device')) :
      Yields core device (.load source target) word
  | loadIndirect {pointer : Register} {word : Word} {device' : δ} (target : Register)
      (h : Device.answer device (core.get pointer) .readWord = (.ok word, device')) :
      Yields core device (.loadIndirect pointer target) word
  | loadIndexed {base source word : Word} {offset : Register} {device' : δ} (target : Register)
      (hsource : effectiveAddress base (core.get offset) = .ok source)
      (h : Device.answer device source .readWord = (.ok word, device')) :
      Yields core device (.loadIndexed base offset target) word
  | unary (operation : Unary) (target : Register) :
      Yields core device (.unary operation target) (operation.apply (core.get target))
  | shift (direction : Shift) (target : Register) (amount : Operand) :
      Yields core device (.shift direction target amount)
        (direction.apply (core.get target) (core.valueOf amount))
  | bitwise (operation : Bitwise) (target : Register) (second : Operand) :
      Yields core device (.bitwise operation target second)
        (operation.apply (core.get target) (core.valueOf second))
  | pop {word : Word} {device' : δ} (target : Register)
      (h : Device.answer device (core.get .sp + 2) .readWord = (.ok word, device')) :
      Yields core device (.pop target) word

/-- An instruction is as long as its opcode and the fields that follow it. -/
theorem length_eq (i : Instruction) : i.length = 1 + i.opcode.format.width := by
  cases i with
  | move operand | store operand | arithmetic _ operand | shift _ _ operand | bitwise _ _ operand
    | jump _ operand | push operand | call operand => cases operand <;> rfl
  | _ => rfl

/-- Of the accesses of a plan the writes are the words that are stored. -/
theorem filter_plan (i : Instruction) (core : Core) :
    (i.plan core).filter (·.2.isWrite) = (i.stores core).map fun s => (s.1, .writeWord s.2) := by
  cases i with
  | call operand =>
    have hreads : core.frameReads.filter (·.2.isWrite) = [] :=
      List.filter_eq_nil_iff.mpr fun _ h => by simp [Core.isWrite_of_mem_frameReads h]
    have hwrites : core.frameWrites.filter (·.2.isWrite) = core.frameWrites := by
      refine List.filter_eq_self.mpr fun access h => ?_
      obtain ⟨word, -, heq⟩ := mem_wordWrites h
      rw [heq]
      rfl
    rw [plan, List.filter_append, hreads, hwrites, List.nil_append, Core.frameWrites, wordWrites,
      ← List.map_uncurry_zip_eq_zipWith]
    rfl
  | _ => rfl

theorem stores_of_writes {i : Instruction} (hi : i.writes = false) (core : Core) :
    i.stores core = [] := by
  cases i with
  | store | push | call => cases hi
  | _ => rfl

theorem loads_of_writes {i : Instruction} (hi : i.writes = true) : i.loads = false := by
  cases i <;> first | rfl | cases hi

end Instruction

namespace Microcode

/-! ## Registers -/

theorem pop_keeps_get {r : Register} (hr : r ≠ .sp) : pop.Keeps (·.get r) := by
  intro core
  refine (pop_ensures core).mono fun _ core' h => ?_
  change core'.get r = core.get r
  rw [h, Core.get_raised, if_neg (Ne.symm hr)]

theorem keeps_get_set {r s : Register} (h : s ≠ r) (word : Word) : (set s word).Keeps (·.get r) :=
  keeps_set fun core => by rw [Core.get_set, if_neg h]

/-- The part of a return behind the two words that it loads first writes neither the instruction
    pointer nor the accumulator. -/
theorem restore_keeps_get {r : Register} (h : r ∉ [.sp, .fp] ++ Register.general) (fp : Word) :
    (do
      Register.general.reverse.forM fun s => do set s (← pop)
      drop (← pop).toNat
      set .fp fp : Microcode Unit).Keeps (·.get r) := by
  have hpop : pop.Keeps (·.get r) := pop_keeps_get (by rintro rfl; simp at h)
  refine (keeps_forM fun s hs => hpop.bind fun word => keeps_get_set ?_ word).bind fun _ =>
    hpop.bind fun count => (drop_keeps hpop count.toNat).bind fun _ => keeps_get_set ?_ fp
  · rintro rfl
    exact h (List.mem_append_right _ (List.mem_reverse.mp hs))
  · rintro rfl
    simp at h

/-- A register that an instruction does not write keeps its value, whatever the devices reply. -/
theorem perform_keeps_get {i : Instruction} {r : Register} (hr : r ∉ i.written) (address : Word) :
    (perform address i).Keeps (·.get r) := by
  cases hs : i.usesStack with
  | false =>
    refine perform_keeps hs (fun s hs core word => ?_) address
    rw [Core.get_set, if_neg (ne_of_mem_of_not_mem hs hr)]
  | true =>
    cases i with
    | push source =>
      simp only [Instruction.written, List.mem_singleton] at hr
      intro core
      refine (perform_ensures_effect rfl address core).mono fun _ core' h => ?_
      change core'.get r = core.get r
      rw [h, Instruction.effect, Core.get_pushed, if_neg (Ne.symm hr)]
    | pop target =>
      simp only [Instruction.written, List.mem_cons, List.not_mem_nil, or_false, not_or] at hr
      exact (pop_keeps_get hr.1).bind fun word => keeps_get_set (Ne.symm hr.2) word
    | call operand =>
      simp only [Instruction.written, List.mem_cons, List.not_mem_nil, or_false, not_or] at hr
      intro core
      refine (perform_ensures_effect rfl address core).mono fun _ core' h => ?_
      change core'.get r = core.get r
      rw [h, Instruction.effect, Core.get_set, if_neg (Ne.symm hr.2.2), Core.get_entered,
        if_neg (not_or.mpr ⟨hr.1, hr.2.1⟩)]
    | ret =>
      simp only [Instruction.written, List.mem_append, List.mem_cons, List.not_mem_nil, or_false,
        not_or] at hr
      obtain ⟨⟨hsp, hfp, hip⟩, hgeneral⟩ := hr
      have hrest : r ∉ [.sp, .fp] ++ Register.general := by simp [hsp, hfp, hgeneral]
      have hsize : ∀ size, (setFrameSize size).Keeps (·.get r) := fun _ _ => rfl
      refine ((keeps_get .fp).bind fun fp => (keeps_get_set (Ne.symm hsp) fp).bind fun _ =>
        (pop_keeps_get hsp).bind fun size => (hsize size).bind fun _ =>
          (pop_keeps_get hsp).bind fun ip => (keeps_get_set (Ne.symm hip) ip).bind fun _ =>
            restore_keeps_get hrest (fp + size)).bind fun _ => ?_
      exact (keeps_get .ip).bind fun ip => keeps_log (.returned ip)
    | _ => cases hs

section

variable [Device δ] {core core' : Core} {device device' : δ}

/-- A load reads a word and sets a register to it. -/
theorem completes_load_iff {a : Word} {target : Register} :
    (access a .readWord >>= fun word => set target word).Completes core device () core' device' ↔
      ∃ word, Device.answer device a .readWord = (.ok word, device') ∧
        core' = core.set target word := by
  rw [completes_access_bind]
  simp only [completes_set]
  constructor
  · rintro ⟨word, _, hanswer, hcore, rfl⟩
    exact ⟨word, hanswer, hcore⟩
  · rintro ⟨word, hanswer, hcore⟩
    exact ⟨word, device', hanswer, hcore, rfl⟩

/-- An instruction that names the register to write writes the value that it yields there. -/
theorem yields_of_perform {i : Instruction} {r : Register} (hr : i.destination? = some r)
    {address : Word} (h : (perform address i).Completes core device () core' device') :
    ∃ word, i.Yields core device word ∧ core'.get r = word := by
  have hset : ∀ {core : Core} {target : Register} {word : Word}, some target = some r →
      (core.set target word).get r = word := by
    intro core target word htarget
    rw [Core.get_set, if_pos (Option.some.inj htarget)]
  cases i with
  | move source target =>
    rw [perform, completes_value_bind, completes_set] at h
    exact ⟨_, .move source target, h.1 ▸ hset hr⟩
  | load source target =>
    rw [perform, completes_load_iff] at h
    obtain ⟨word, hanswer, rfl⟩ := h
    exact ⟨word, .load target hanswer, hset hr⟩
  | loadIndirect pointer target =>
    rw [perform, completes_get_bind, completes_load_iff] at h
    obtain ⟨word, hanswer, rfl⟩ := h
    exact ⟨word, .loadIndirect target hanswer, hset hr⟩
  | loadIndexed base offset target =>
    rw [perform, completes_get_bind, completes_check_bind] at h
    obtain ⟨source, hsource, h⟩ := h
    rw [completes_load_iff] at h
    obtain ⟨word, hanswer, rfl⟩ := h
    exact ⟨word, .loadIndexed target hsource hanswer, hset hr⟩
  | unary operation target =>
    rw [perform, completes_get_bind, completes_set] at h
    exact ⟨_, .unary operation target, h.1 ▸ hset hr⟩
  | shift direction target amount =>
    rw [perform, completes_get_bind, completes_value_bind, completes_set] at h
    exact ⟨_, .shift direction target amount, h.1 ▸ hset hr⟩
  | bitwise operation target second =>
    rw [perform, completes_get_bind, completes_value_bind, completes_set] at h
    exact ⟨_, .bitwise operation target second, h.1 ▸ hset hr⟩
  | pop target =>
    rw [perform, completes_bind] at h
    obtain ⟨word, core₁, device₁, hpop, h⟩ := h
    rw [completes_set] at h
    obtain ⟨-, hanswer, -⟩ := pop_completes_iff_answer.mp hpop
    exact ⟨word, .pop target hanswer, h.1 ▸ hset hr⟩
  | _ => cases hr

/-- A return goes on at the second word that it loads. -/
theorem ip_of_leave (h : leave.Completes core device () core' device') :
    ∃ size ip device₁ device₂,
      Device.answer device (core.get .fp + 2) .readWord = (.ok size, device₁) ∧
      Device.answer device₁ (core.get .fp + 4) .readWord = (.ok ip, device₂) ∧
      core'.get .ip = ip := by
  rw [leave, completes_get_bind, completes_set_bind, completes_bind] at h
  obtain ⟨size, core₁, device₁, hsize, h⟩ := h
  obtain ⟨-, hread, rfl⟩ := pop_completes_iff_answer.mp hsize
  rw [Core.get_set, if_pos rfl] at hread
  rw [completes_setFrameSize_bind, completes_bind] at h
  obtain ⟨ip, core₂, device₂, hip, h⟩ := h
  obtain ⟨-, hread', rfl⟩ := pop_completes_iff_answer.mp hip
  change Device.answer device₁ ((core.leaving size).get .sp + 2) .readWord = _ at hread'
  rw [Core.get_leaving, if_pos rfl, UInt16.add_assoc] at hread'
  rw [completes_set_bind] at h
  have hkept := (restore_keeps_get (r := .ip) (by decide) _).of_completes h
  rw [Core.get_set, if_pos rfl] at hkept
  exact ⟨size, ip, device₁, device₂, hread, hread', hkept⟩

end

end Microcode

namespace Machine

variable [Device δ] {machine : Machine δ}

/-! ## One step -/

/-- All that a step changes whose instruction was fetched and left the bus `fetched` behind. -/
structure Footprint (machine : Machine δ) (i : Instruction) (fetched : Bus δ) : Prop where
  /-- no register but the instruction pointer and those that the instruction writes -/
  registers : ∀ r, r ≠ .ip → r ∉ i.written → machine.step.2.core.get r = machine.core.get r
  /-- the size of the frame only if the instruction works on the stack -/
  frameSize : i.usesStack = false → machine.step.2.core.frameSize = machine.core.frameSize
  /-- the words that are stored are all that is written -/
  writes : machine.trace.filter (·.request.isWrite) =
    (i.stores (machine.core.advanced i.length)).map fun s => ⟨s.1, .writeWord s.2, .ok ()⟩
  /-- the register that the instruction names holds the value that it yields -/
  destination : ∀ r, i.destination? = some r →
    ∃ word, i.Yields (machine.core.advanced i.length) fetched word ∧
      machine.step.2.core.get r = word
  /-- a jump that is taken and a call go on at their target -/
  redirected : ∀ target,
    i.target? (machine.core.get .ip) (machine.core.advanced i.length) = some target →
    machine.step.2.core.get .ip = target
  /-- a return goes on at the address that was saved, the second word above the frame pointer -/
  returned : i = .ret → ∃ size saved bus bus',
    fetched.answer (machine.core.get .fp + 2) .readWord = (.ok size, bus) ∧
    bus.answer (machine.core.get .fp + 4) .readWord = (.ok saved, bus') ∧
    machine.step.2.core.get .ip = saved
  /-- anything else goes on behind the opcode and its operands -/
  onwards : i ≠ .ret → i.destination? ≠ some .ip →
    i.target? (machine.core.get .ip) (machine.core.advanced i.length) = none →
    machine.step.2.core.get .ip = machine.core.get .ip + (1 + i.opcode.format.width)

/-- The writes of a step are the words that its instruction stores. -/
theorem writes_of_step {i : Instruction} {b : Bool} (hi : machine.instruction? = some i)
    (h : machine.step.1 = .ok b) :
    machine.trace.filter (·.request.isWrite) =
      (i.stores (machine.core.advanced i.length)).map fun s => ⟨s.1, .writeWord s.2, .ok ()⟩ := by
  obtain ⟨bus, fetched, hfetched, htrace, hstep⟩ := split_of_instruction?_eq_some hi
  have hfetches : fetched.filter (·.request.isWrite) = [] := by
    refine List.filter_eq_nil_iff.mpr fun event he => ?_
    simp [Opcode.isWrite_of_mem_fetches (hfetched.mem_plan he)]
  rw [htrace, List.filter_append, hfetches, List.nil_append]
  cases hwrites : i.writes with
  | false =>
    have hreads := Microcode.perform_readsOnly hwrites (machine.core.get .ip)
      (machine.core.advanced i.length)
    rw [i.stores_of_writes hwrites, List.map_nil, List.filter_eq_nil_iff]
    intro event he
    simp [hreads.of_mem_trace he]
  | true =>
    have hfollows := (Microcode.perform_makes (i.loads_of_writes hwrites) (machine.core.get .ip)
      (machine.core.advanced i.length)).follows bus
    have hverdict : ((Microcode.perform (machine.core.get .ip) i
        (machine.core.advanced i.length)).eval bus).1.map (fun _ => ()) = .ok () := by
      rw [hstep] at h
      generalize (Microcode.perform _ _ _).eval bus = outcome at h ⊢
      obtain ⟨_ | _, _⟩ := outcome
      · cases h
      · rfl
    rw [hverdict] at hfollows
    have hplan := i.filter_plan (machine.core.advanced i.length)
    rw [hfollows.eq_map, List.filter_map]
    change List.map _ ((i.plan (machine.core.advanced i.length)).filter (·.2.isWrite)) = _
    rw [hplan, List.map_map]
    rfl

/-- The instruction pointer after a step that goes on behind its instruction. -/
theorem perform_ensures_onwards {i : Instruction} {address : Word} {core : Core} (hret : i ≠ .ret)
    (hip : i.destination? ≠ some .ip) (htarget : i.target? address core = none) :
    (Microcode.perform address i).Ensures core fun _ core' => core'.get .ip = core.get .ip := by
  by_cases hwritten : .ip ∈ i.written
  · cases i with
    | jump condition compared target =>
      refine (Microcode.perform_ensures_effect rfl address core).mono fun _ core' h => ?_
      have hnot : ¬condition.holds (core.comparand address compared) (core.get .acc) := by
        simpa [Instruction.target?] using htarget
      rw [h, Instruction.effect, if_neg hnot]
    | call operand => cases htarget
    | ret => exact absurd rfl hret
    | _ => simp_all [Instruction.written, Instruction.destination?]
  · exact Microcode.perform_keeps_get hwritten address core

theorem perform_ensures_target {i : Instruction} {address : Word} {core : Core} {target : Word}
    (htarget : i.target? address core = some target) :
    (Microcode.perform address i).Ensures core fun _ core' => core'.get .ip = target := by
  cases i with
  | jump condition compared word =>
    refine (Microcode.perform_ensures_effect rfl address core).mono fun _ core' h => ?_
    obtain ⟨hholds, rfl⟩ : condition.holds (core.comparand address compared) (core.get .acc) ∧
        word = target := by simpa [Instruction.target?] using htarget
    rw [h, Instruction.effect, if_pos hholds, Core.get_set, if_pos rfl]
  | call operand =>
    cases htarget
    refine (Microcode.perform_ensures_effect rfl address core).mono fun _ core' h => ?_
    rw [h, Instruction.effect, Core.get_set, if_pos rfl]
  | _ => cases htarget

/-- All that a step changes that succeeds. -/
theorem footprint_of_step {b : Bool} (hm : machine.halted = false) (h : machine.step.1 = .ok b) :
    ∃ i fetched, machine.instruction? = some i ∧
      Microcode.fetchInstruction.Completes machine.core machine.bus i
        (machine.core.advanced i.length) fetched ∧ Footprint machine i fetched := by
  obtain ⟨i, bus, hi, hfetch, hperform, -⟩ := performs_of_step hm h
  refine ⟨i, bus, hi, hfetch, ?_⟩
  exact {
    registers := fun r hr hwritten => by
      rw [← machine.core.get_advanced_of_ne i.length (Ne.symm hr)]
      exact (Microcode.perform_keeps_get hwritten _).of_completes hperform
    frameSize := fun hstack => by
      rw [← machine.core.frameSize_advanced i.length]
      exact (Microcode.perform_keeps hstack (fun _ _ _ _ => rfl) _).of_completes hperform
    writes := writes_of_step hi h
    destination := fun r hr => Microcode.yields_of_perform hr hperform
    redirected := fun target htarget => (perform_ensures_target htarget).of_completes hperform
    returned := by
      rintro rfl
      rw [Microcode.perform, Microcode.completes_bind] at hperform
      obtain ⟨⟨⟩, core, bus', hleave, hrest⟩ := hperform
      obtain ⟨size, ip, bus₁, bus₂, hsize, hip, hcore⟩ := Microcode.ip_of_leave hleave
      rw [Microcode.completes_get_bind, Microcode.completes_log] at hrest
      rw [Core.get_advanced_of_ne _ _ (by decide)] at hsize hip
      exact ⟨size, ip, bus₁, bus₂, hsize, hip, by rw [hrest.1, hcore]⟩
    onwards := fun hret hip htarget => by
      have hkept := (perform_ensures_onwards hret hip htarget).of_completes hperform
      rw [hkept, Core.get_advanced, if_pos rfl, i.length_eq] }

/-! ## Bytes without a meaning -/

/-- The next `n` steps move over as many bytes, which leaves the bus `bus` behind, and do nothing
    else. -/
structure Crosses (machine : Machine δ) (n : Nat) (bus : Bus δ) : Prop where
  goesOn : machine.GoesOn n
  core : ∀ k ≤ n, (machine.after k).core = machine.core.advanced (.ofNat k)
  trace : ∀ k < n, (machine.after k).trace = [⟨machine.core.get .ip + .ofNat k, .readByte, .ok ()⟩]
  bus : (machine.after n).bus = bus
  halted : (machine.after n).halted = false

/-- A byte without a meaning is read, and nothing but the instruction pointer changes. -/
theorem crosses_one {byte : Byte} {bus : Bus δ} (hm : machine.halted = false)
    (hread : machine.bus.answer (machine.core.get .ip) .readByte = (.ok byte, bus))
    (hbyte : Opcode.ofByte byte = .unknown byte) : Crosses machine 1 bus := by
  have hanswer : Device.answer machine.bus (machine.core.get .ip) .readByte = (.ok byte, bus) := hread
  have hcompletes : Microcode.instruction.Completes machine.core machine.bus false
      (machine.core.advanced 1) bus := by
    unfold Microcode.Completes
    rw [Microcode.instruction_apply, BusProgram.eval, hanswer]
    dsimp only
    rw [hbyte]
    rfl
  have htrace : machine.trace = [⟨machine.core.get .ip, .readByte, .ok ()⟩] := by
    rw [trace_of_not_halted hm, Microcode.instruction_apply, BusProgram.trace, hanswer]
    dsimp only
    rw [hbyte]
    rfl
  obtain ⟨hstep, hcore, hbus⟩ := step_of_completes hm hcompletes
  exact {
    goesOn := fun k hk => by rwa [Nat.lt_one_iff.mp hk]
    core := fun k hk => by
      rcases Nat.le_one_iff_eq_zero_or_eq_one.mp hk with rfl | rfl
      · exact machine.core.advanced_zero.symm
      · exact hcore
    trace := fun k hk => by
      rw [Nat.lt_one_iff.mp hk, after, htrace]
      simp
    bus := hbus
    halted := halted_of_step_eq_ok hstep }

/-- Rows that follow each other are one row. -/
theorem Crosses.append {m n : Nat} {bus bus' : Bus δ} (h : Crosses machine m bus)
    (h' : Crosses (machine.after m) n bus') : Crosses machine (m + n) bus' where
  goesOn k hk := by
    rcases Nat.lt_or_ge k m with hlt | hge
    · exact h.goesOn k hlt
    · obtain ⟨j, rfl⟩ := Nat.exists_eq_add_of_le hge
      rw [← after_after]
      exact h'.goesOn j (by omega)
  core k hk := by
    rcases Nat.le_total k m with hle | hge
    · exact h.core k hle
    · obtain ⟨j, rfl⟩ := Nat.exists_eq_add_of_le hge
      rw [← after_after, h'.core j (by omega), h.core m (Nat.le_refl m), Core.advanced_advanced,
        UInt16.ofNat_add]
  trace k hk := by
    rcases Nat.lt_or_ge k m with hlt | hge
    · exact h.trace k hlt
    · obtain ⟨j, rfl⟩ := Nat.exists_eq_add_of_le hge
      rw [← after_after, h'.trace j (by omega), h.core m (Nat.le_refl m), Core.get_advanced,
        if_pos rfl, UInt16.ofNat_add, UInt16.add_assoc]
  bus := by rw [← after_after, h'.bus]
  halted := by rw [← after_after, h'.halted]

end Machine

/-- What was read before is still there. -/
theorem Bus.mem_of_readEach [Device δ] {bus bus' : Bus δ} {address : Word} {done bytes : Array Byte}
    {n : Nat} (h : bus.readEach address done n = (.ok bytes, bus')) {byte : Byte}
    (hbyte : byte ∈ done) : byte ∈ bytes := by
  induction n generalizing bus address done with
  | zero =>
    cases h
    exact hbyte
  | succ n ih =>
    rw [readEach] at h
    split at h
    next => exact ih h (Array.mem_push.mpr (Or.inl hbyte))
    next => cases h

namespace Machine

variable [Device δ] {machine : Machine δ}

/-- A row of bytes without a meaning takes as many steps as it has bytes. -/
theorem crosses_of_readEach {bus : Bus δ} {done bytes : Array Byte} {n : Nat}
    (hm : machine.halted = false)
    (hread : machine.bus.readEach (machine.core.get .ip) done n = (.ok bytes, bus))
    (hbytes : ∀ byte ∈ bytes, Opcode.ofByte byte = .unknown byte) : Crosses machine n bus := by
  induction n generalizing machine done with
  | zero =>
    cases hread
    refine ⟨.zero machine, fun k hk => ?_, fun _ h => (nomatch h), rfl, hm⟩
    rw [Nat.le_zero.mp hk]
    exact machine.core.advanced_zero.symm
  | succ n ih =>
    rw [Bus.readEach] at hread
    split at hread
    next byte bus₁ heq =>
      have hlast : byte ∈ done.push byte := Array.mem_push_self
      have hmem := Bus.mem_of_readEach hread hlast
      have hone := crosses_one hm heq (hbytes byte hmem)
      have hip : (machine.after 1).core.get .ip = machine.core.get .ip + 1 := by
        rw [hone.core 1 (Nat.le_refl 1), Core.get_advanced, if_pos rfl]
        rfl
      rw [← hip, ← hone.bus] at hread
      rw [Nat.add_comm n 1]
      exact hone.append (ih hone.halted hread)
    next => cases hread

/-- All that a step changes that succeeds, and how a row of bytes without a meaning is crossed. -/
theorem footprint (hm : machine.halted = false) :
    (∀ b, machine.step.1 = .ok b → ∃ i fetched, machine.instruction? = some i ∧
      Microcode.fetchInstruction.Completes machine.core machine.bus i
        (machine.core.advanced i.length) fetched ∧ Footprint machine i fetched) ∧
    ∀ n bytes bus, machine.bus.read (machine.core.get .ip) n = (.ok bytes, bus) →
      (∀ byte ∈ bytes, Opcode.ofByte byte = .unknown byte) → Crosses machine n bus :=
  ⟨fun _ h => footprint_of_step hm h, fun _ _ _ hread hbytes => crosses_of_readEach hm hread hbytes⟩

/-- A machine whose program subtracts from nine and stores the difference, behind two bytes without a
    meaning. -/
def skipping : Machine Ram := loaded #[0, 1, 0x16, 0, 9, 2, 0x12, 1, 0xff, 0xa0]

/-- The subtraction changes the accumulator and writes nothing; the store changes no register but the
    instruction pointer and writes one word. -/
theorem footprint_skipping :
    Crosses skipping 2 skipping.bus ∧
      ((skipping.after 2).instruction? = some (.arithmetic .sub (.literal 9) .r1) ∧
        (∀ r, r ≠ .ip → r ≠ .acc →
          (skipping.after 3).core.get r = (skipping.after 2).core.get r) ∧
        (skipping.after 3).core.get .acc = 9 ∧ (skipping.after 3).core.get .ip = 6 ∧
        (skipping.after 2).trace.filter (·.request.isWrite) = []) ∧
      (skipping.after 3).instruction? = some (.store (.register .acc) 0xffa0) ∧
        (∀ r, r ≠ .ip → (skipping.after 4).core.get r = (skipping.after 3).core.get r) ∧
        (skipping.after 4).core.get .ip = 10 ∧
        (skipping.after 3).trace.filter (·.request.isWrite) = [⟨0xffa0, .writeWord 9, .ok ()⟩] := by
  have hread : skipping.bus.read (skipping.core.get .ip) 2 = (.ok #[0, 1], skipping.bus) := by rfl
  have hm : skipping.halted = false := rfl
  have hbytes : ∀ byte ∈ (#[0, 1] : Array Byte), Opcode.ofByte byte = .unknown byte := by
    intro byte hbyte
    obtain rfl | rfl : byte = 0 ∨ byte = 1 := by simpa using hbyte
    all_goals rfl
  have hcross : Crosses skipping 2 skipping.bus := (footprint hm).2 2 #[0, 1] _ hread hbytes
  have hsub : (skipping.after 2).instruction? = some (.arithmetic .sub (.literal 9) .r1) := by
    decide +kernel
  have hstore : (skipping.after 3).instruction? = some (.store (.register .acc) 0xffa0) := by
    decide +kernel
  have hacc : (skipping.after 3).core.get .acc = 9 := by decide +kernel
  obtain ⟨i, bus, hi, -, hfirst⟩ := (footprint hcross.halted).1 false (by decide +kernel)
  obtain rfl := Option.some.inj (hi.symm.trans hsub)
  obtain ⟨j, bus', hj, -, hsecond⟩ :=
    (@footprint _ _ (skipping.after 3) (by decide +kernel)).1 false (by decide +kernel)
  obtain rfl := Option.some.inj (hj.symm.trans hstore)
  refine ⟨hcross, ⟨hsub, fun r hip hr => ?_, hacc, ?_, ?_⟩, hstore, fun r hip => ?_, ?_, ?_⟩
  · exact hfirst.registers r hip (by simpa [Instruction.written] using hr)
  · exact hfirst.onwards nofun nofun rfl
  · exact hfirst.writes
  · exact hsecond.registers r hip (by simp [Instruction.written])
  · exact hsecond.onwards nofun nofun rfl
  · exact hsecond.writes

end Machine

end WordMachine
