import WordMachine.Proofs.Fetching
import WordMachine.Proofs.Stack

/-!
# The order of writes

What a step asks of the devices, one access after the other, when any device may refuse any access.
Stores, pushes and calls have a plan behind their fetches, and all other instructions only read. A
store or a push is one write. A call goes through the ten words of the frame twice, first to read and
then to write them, so that it makes no write unless all the words were read.

* `perform_readsOnly`: the instructions that only read.
* `perform_makes`: the accesses and the effect of an instruction that loads nothing.
* `perform_writesLast`: any other instruction writes last, and once.
* `writeOrder`: the order of the accesses of a step, and when a write comes ahead of a fault.
-/

namespace WordMachine

variable {α β δ : Type}

/-! ## Instructions that only read -/

/-- Whether an instruction asks a device for a change. -/
def Instruction.writes : Instruction → Bool
  | store _ _ => true
  | push _ => true
  | call _ => true
  | _ => false

namespace Microcode

theorem value_readsOnly : ∀ operand, (value operand).ReadsOnly
  | .literal word => readsOnly_pure word
  | .register r => readsOnly_get r

theorem comparand_readsOnly (address : Word) (operand : Operand) :
    (comparand address operand).ReadsOnly := by
  unfold comparand
  split
  · exact readsOnly_pure _
  · exact value_readsOnly operand

theorem ReadsOnly.set {code : Microcode Word} (hc : code.ReadsOnly) (r : Register) :
    (do set r (← code) : Microcode Unit).ReadsOnly :=
  hc.bind fun word => readsOnly_set r word

theorem pop_readsOnly : pop.ReadsOnly :=
  readsOnly_core.bind fun core => (readsOnly_check core.popped).bind fun core =>
    (readsOnly_setCore core).bind fun _ => (readsOnly_get .sp).bind fun sp =>
      readsOnly_access sp rfl

theorem drop_readsOnly : ∀ n, (drop n).ReadsOnly
  | 0 => readsOnly_pure ()
  | n + 1 => pop_readsOnly.bind fun _ => drop_readsOnly n

theorem leave_readsOnly : leave.ReadsOnly :=
  (readsOnly_get .fp).bind fun fp => (readsOnly_set .sp fp).bind fun _ =>
    pop_readsOnly.bind fun size => (readsOnly_setFrameSize size).bind fun _ =>
      pop_readsOnly.bind fun ip => (readsOnly_set .ip ip).bind fun _ =>
        (readsOnly_forM fun r _ => pop_readsOnly.set r).bind fun _ =>
          pop_readsOnly.bind fun count => (drop_readsOnly count.toNat).bind fun _ =>
            readsOnly_set .fp (fp + size)

/-- Stores, pushes and calls are the only instructions that ask for a change. -/
theorem perform_readsOnly {i : Instruction} (hi : i.writes = false) (address : Word) :
    (perform address i).ReadsOnly := by
  cases i with
  | move source target => exact (value_readsOnly source).set target
  | store source target => cases hi
  | load source target => exact (readsOnly_access source rfl).set target
  | loadIndirect pointer target =>
    exact (readsOnly_get pointer).bind fun source => (readsOnly_access source rfl).set target
  | loadIndexed base offset target =>
    exact (readsOnly_get offset).bind fun distance =>
      (readsOnly_check (effectiveAddress base distance)).bind fun source =>
        (readsOnly_access source rfl).set target
  | arithmetic operation first second =>
    exact (value_readsOnly first).bind fun a => (readsOnly_get second).bind fun b =>
      readsOnly_set .acc (operation.apply a b)
  | literalMinus subtrahend minuend =>
    exact (readsOnly_get subtrahend).bind fun word => readsOnly_set .acc (minuend - word)
  | unary operation target =>
    exact (readsOnly_get target).bind fun word => readsOnly_set target (operation.apply word)
  | shift direction target amount =>
    exact (readsOnly_get target).bind fun a => (value_readsOnly amount).bind fun b =>
      readsOnly_set target (direction.apply a b)
  | bitwise operation target second =>
    exact (readsOnly_get target).bind fun a => (value_readsOnly second).bind fun b =>
      readsOnly_set target (operation.apply a b)
  | jump condition compared target =>
    refine (comparand_readsOnly address compared).bind fun a => (readsOnly_get .acc).bind fun b => ?_
    split
    · exact readsOnly_set .ip target
    · exact readsOnly_pure ()
  | push source => cases hi
  | pop target => exact pop_readsOnly.set target
  | call operand => cases hi
  | ret => exact leave_readsOnly.bind fun _ => (readsOnly_get .ip).bind fun ip =>
      readsOnly_log (.returned ip)
  | halt => exact readsOnly_pure ()
  | unknown byte => exact readsOnly_log (.skipped byte address)

end Microcode

/-! ## Frames -/

/-- The addresses of `n` words that are pushed one after the other, the first one at `address`. -/
def slots (address : Word) (n : Nat) : List Word :=
  (List.range n).map fun i => address - 2 * .ofNat i

theorem slots_succ (address : Word) (n : Nat) :
    slots address (n + 1) = address :: slots (address - 2) n := by
  rw [slots, List.range_succ_eq_map, List.map_cons, List.map_map, slots]
  congr 1
  · simp
  · refine List.map_congr_left fun i _ => ?_
    change address - 2 * .ofNat (i + 1) = address - 2 - 2 * .ofNat i
    rw [UInt16.ofNat_add]
    grind

theorem mem_slots_iff {address a : Word} {n : Nat} :
    a ∈ slots address n ↔ ∃ i < n, a = address - 2 * .ofNat i := by
  simp [slots, eq_comm]

/-- Reads of words one after the other. -/
def wordReads (addresses : List Word) : List (Word × Request) :=
  addresses.map fun a => (a, .readWord)

/-- Writes of words one after the other. -/
def wordWrites (addresses words : List Word) : List (Word × Request) :=
  List.zipWith (fun a word => (a, .writeWord word)) addresses words

theorem mem_wordWrites {addresses words : List Word} {a : Word} {request : Request}
    (h : (a, request) ∈ wordWrites addresses words) :
    ∃ word, a ∈ addresses ∧ request = .writeWord word := by
  rw [wordWrites, ← List.map_uncurry_zip_eq_zipWith] at h
  obtain ⟨⟨b, word⟩, hmem, heq⟩ := List.mem_map.mp h
  cases heq
  exact ⟨word, (List.of_mem_zip hmem).1, rfl⟩

namespace Core

/-- The reads with which a call finds out whether there is room for its frame. -/
def frameReads (core : Core) : List (Word × Request) := wordReads (slots (core.get .sp) 10)

theorem isWrite_of_mem_frameReads {core : Core} {access : Word × Request}
    (h : access ∈ core.frameReads) : access.2.isWrite = false := by
  obtain ⟨a, -, rfl⟩ := List.mem_map.mp h
  rfl

/-- The writes with which a call stores its frame. -/
def frameWrites (core : Core) : List (Word × Request) :=
  wordWrites (slots (core.get .sp) 10) core.frame

end Core

namespace Microcode

theorem probe_makes (core : Core) (address : Word) (n : Nat) :
    (probe address n core).Makes (fun r => r.2 = core) (wordReads (slots address n)) := by
  induction n generalizing address with
  | zero => exact ⟨rfl, rfl⟩
  | succ n ih =>
    rw [slots_succ]
    exact ⟨_, rfl, fun _ => ih (address - 2)⟩

theorem pushAll_makes (core : Core) (words : List Word) :
    (pushAll words core).Makes (fun r => r.2 = core.lowered words.length)
      (wordWrites (slots (core.get .sp) words.length) words) := by
  induction words generalizing core with
  | nil => exact ⟨rfl, core.lowered_zero.symm⟩
  | cons word words ih =>
    have hrest := ih core.pushed
    rw [Core.pushed_lowered, Core.get_pushed, if_pos rfl] at hrest
    rw [List.length_cons, slots_succ]
    exact ⟨_, rfl, fun _ => hrest⟩

/-- A call reads where its frame will be, and then writes the frame. -/
theorem enter_makes (core : Core) :
    (enter core).Makes (fun r => r.2 = core.entered) (core.frameReads ++ core.frameWrites) := by
  rw [enter_apply]
  refine (probe_makes core (core.get .sp) frameWords).bind fun r hr => ?_
  obtain ⟨⟨⟩, core₁⟩ := r
  obtain rfl : core₁ = core := hr
  rw [← List.append_nil (Core.frameWrites core₁)]
  exact (pushAll_makes core₁ core₁.frame).bind fun _ _ => ⟨rfl, rfl⟩

end Microcode

/-! ## Instructions that load nothing -/

/-- The value that a jump fetched at `address` compares on a core. -/
def Core.comparand (core : Core) (address : Word) (operand : Operand) : Word :=
  if operand = .register .ip then address + 2 else core.valueOf operand

namespace Instruction

/-- Whether an instruction asks a device for a word to go on with. -/
def loads : Instruction → Bool
  | load _ _ => true
  | loadIndirect _ _ => true
  | loadIndexed _ _ _ => true
  | pop _ => true
  | ret => true
  | _ => false

/-- The accesses that an instruction makes on a core behind its fetches, if it loads nothing. -/
def plan (core : Core) : Instruction → List (Word × Request)
  | store source target => [(target, .writeWord (core.valueOf source))]
  | push source => [(core.get .sp, .writeWord (core.valueOf source))]
  | call _ => core.frameReads ++ core.frameWrites
  | _ => []

/-- The core after an instruction that was fetched at `address`, if it loads nothing. -/
def effect (address : Word) (core : Core) : Instruction → Core
  | move source target => core.set target (core.valueOf source)
  | arithmetic operation first second =>
    core.set .acc (operation.apply (core.valueOf first) (core.get second))
  | literalMinus subtrahend minuend => core.set .acc (minuend - core.get subtrahend)
  | unary operation target => core.set target (operation.apply (core.get target))
  | shift direction target amount =>
    core.set target (direction.apply (core.get target) (core.valueOf amount))
  | bitwise operation target second =>
    core.set target (operation.apply (core.get target) (core.valueOf second))
  | jump condition compared target =>
    if condition.holds (core.comparand address compared) (core.get .acc) then core.set .ip target
    else core
  | push _ => core.pushed
  | call target => core.entered.set .ip (core.valueOf target)
  | _ => core

end Instruction

namespace Microcode

theorem comparand_apply (address : Word) (operand : Operand) (core : Core) :
    comparand address operand core = .done (core.comparand address operand, core) := by
  unfold comparand Core.comparand
  split
  · rfl
  · exact value_apply operand core

/-- An instruction that loads nothing makes the same accesses whatever the replies, and has the same
    effect. -/
theorem perform_makes {i : Instruction} (hi : i.loads = false) (address : Word) (core : Core) :
    (perform address i core).Makes (fun r => r.2 = i.effect address core) (i.plan core) := by
  cases i with
  | load | loadIndirect | loadIndexed | pop | ret => cases hi
  | store source target =>
    change BusProgram.Makes _ _ ((value source core).bind _)
    rw [value_apply]
    exact ⟨[], rfl, fun _ => ⟨rfl, rfl⟩⟩
  | push source =>
    change BusProgram.Makes _ _ ((value source core).bind _)
    rw [value_apply]
    exact ⟨[], rfl, fun _ => ⟨rfl, rfl⟩⟩
  | call target =>
    change BusProgram.Makes _ _ ((value target core).bind _)
    rw [value_apply, Instruction.plan, ← List.append_nil (core.frameReads ++ core.frameWrites)]
    refine (enter_makes core).bind fun r hr => ⟨rfl, ?_⟩
    change r.2.set .ip (core.valueOf target) = _
    rw [hr]
    rfl
  | jump condition compared target =>
    change BusProgram.Makes _ _ ((comparand address compared core).bind _)
    rw [comparand_apply]
    change BusProgram.Makes (fun r => r.2 = if condition.holds (core.comparand address compared)
        (core.get .acc) then core.set .ip target else core) []
      ((if condition.holds (core.comparand address compared) (core.get .acc) then set .ip target
        else pure ()) core)
    split <;> exact ⟨rfl, rfl⟩
  | move source _ | arithmetic _ source _ | shift _ _ source | bitwise _ _ source =>
    cases source <;> exact ⟨rfl, rfl⟩
  | literalMinus | unary | halt | unknown => exact ⟨rfl, rfl⟩

theorem perform_ensures_effect {i : Instruction} (hi : i.loads = false) (address : Word)
    (core : Core) : (perform address i).Ensures core fun _ core' => core' = i.effect address core :=
  (perform_makes hi address core).always

end Microcode

/-! ## Writes that come last -/

/-- The accesses that lead to a result are reads, except perhaps the last one. If the result is a
    fault and the last access is a write, the fault is that of the write. -/
structure WritesLast (trace : List Event) (result : Except Fault α) : Prop where
  last : ∃ reads last, trace = reads ++ last ∧ (∀ event ∈ reads, event.request.isWrite = false) ∧
    last.length ≤ 1
  failed : ∀ fault, result = .error fault →
    ∀ event ∈ trace, event.request.isWrite = true → event.ending = .error fault

theorem writesLast_of_reads {trace : List Event}
    (h : ∀ event ∈ trace, event.request.isWrite = false) (result : Except Fault α) :
    WritesLast trace result where
  last := ⟨trace, [], (List.append_nil _).symm, h, Nat.zero_le 1⟩
  failed fault _ event hevent hwrite := by
    rw [h event hevent] at hwrite
    cases hwrite

/-- Reads may come in front. -/
theorem WritesLast.append {reads trace : List Event} {result : Except Fault α}
    {result' : Except Fault β} (h : WritesLast trace result)
    (hreads : ∀ event ∈ reads, event.request.isWrite = false)
    (hresult : ∀ fault, result' = .error fault → result = .error fault) :
    WritesLast (reads ++ trace) result' where
  last := by
    obtain ⟨reads', last, rfl, hreads', hlast⟩ := h.last
    refine ⟨reads ++ reads', last, (List.append_assoc _ _ _).symm, fun event hevent => ?_, hlast⟩
    exact (List.mem_append.mp hevent).elim (hreads event) (hreads' event)
  failed fault hfault event hevent hwrite := by
    rcases List.mem_append.mp hevent with hevent | hevent
    · rw [hreads event hevent] at hwrite
      cases hwrite
    · exact h.failed fault (hresult fault hfault) event hevent hwrite

/-- What is left to do of an instruction that is not a call writes last. -/
theorem perform_writesLast [Device δ] {i : Instruction} (hi : ∀ operand, i ≠ .call operand)
    (address : Word) (core : Core) (device : δ) :
    WritesLast ((Microcode.perform address i core).trace device)
      ((Microcode.perform address i core).eval device).1 := by
  by_cases hwrites : i.writes = true
  · -- a write is all that is left to do
    obtain ⟨hloads, target, request, hplan⟩ : i.loads = false ∧
        ∃ target request, i.plan core = [(target, request)] := by
      cases i with
      | store | push => exact ⟨rfl, _, _, rfl⟩
      | call operand => exact absurd rfl (hi operand)
      | _ => cases hwrites
    have hfollows := (Microcode.perform_makes hloads address core).follows device
    rw [hplan] at hfollows
    rw [hfollows.of_singleton]
    refine ⟨⟨[], _, rfl, fun _ h => (nomatch h), Nat.le_refl 1⟩, fun fault hfault event hevent _ => ?_⟩
    rw [List.mem_singleton.mp hevent, hfault]
    rfl
  · have hreads := Microcode.perform_readsOnly (by simpa using hwrites) address core
    exact writesLast_of_reads (fun _ h => hreads.of_mem_trace h) _

/-! ## Owners -/

namespace Bus

variable [Device δ] {bus : Bus δ}

/-- An access changes at most the device of a region. -/
theorem owner_answer (bus : Bus δ) (address other : Word) (request : Request) :
    ((bus.answer address request).2.owner other).map (·.withDevice ()) =
      (bus.owner other).map (·.withDevice ()) := by
  by_cases hsame : bus.owner other = bus.owner address
  · cases howner : bus.owner address with
    | none => rw [answer_of_owner_eq_none howner]
    | some region =>
      rw [owner_answer_of_eq howner (hsame.trans howner), hsame, howner]
      rfl
  · rw [owner_answer_of_ne hsame]

/-- A program leaves every address to the region that it belongs to. -/
theorem owner_eval (p : BusProgram α) (bus : Bus δ) (other : Word) :
    ((p.eval bus).2.owner other).map (·.withDevice ()) =
      (bus.owner other).map (·.withDevice ()) := by
  induction p generalizing bus with
  | done result => rfl
  | fault f => rfl
  | access address request next ih =>
    have hanswer := owner_answer bus address other request
    change ((Device.answer bus address request).2.owner other).map _ = _ at hanswer
    rw [BusProgram.eval]
    generalize Device.answer bus address request = outcome at hanswer
    obtain ⟨f | reply, bus₁⟩ := outcome
    · exact hanswer
    · exact (ih reply bus₁).trans hanswer
  | log entry next ih => exact ih bus

/-- An access that succeeds is made at an address that belongs to a region. -/
theorem exists_owner_of_mem_trace {p : BusProgram α} {event : Event} (h : event ∈ p.trace bus)
    (hok : event.ending = .ok ()) : ∃ region, bus.owner event.address = some region := by
  induction p generalizing bus with
  | done result => cases h
  | fault f => cases h
  | access address request next ih =>
    rw [BusProgram.trace] at h
    split at h
    next reply bus₁ heq =>
      rcases List.mem_cons.mp h with rfl | h
      · cases howner : bus.owner address with
        | some region => exact ⟨region, rfl⟩
        | none =>
          have hanswer : Device.answer bus address request = _ :=
            answer_of_owner_eq_none howner request
          rw [heq] at hanswer
          cases hanswer
      · obtain ⟨region, hregion⟩ := ih reply h
        have howner := owner_answer bus address event.address request
        change ((Device.answer bus address request).2.owner event.address).map _ = _ at howner
        rw [heq, hregion] at howner
        obtain ⟨region', hregion', -⟩ := Option.map_eq_some_iff.mp howner.symm
        exact ⟨region', hregion'⟩
    next f bus₁ heq =>
      rw [List.mem_singleton.mp h] at hok
      cases hok
  | log entry next ih => exact ih h

end Bus

/-! ## Steps -/

namespace Machine

variable [Device δ] {machine : Machine δ}

/-- The order in which the next step asks the devices for reads and writes. -/
structure WriteOrder (machine : Machine δ) : Prop where
  /-- a step that does not call makes at most one write, makes it last, and fails if the write does -/
  single : (∀ operand, machine.instruction? ≠ some (.call operand)) →
    WritesLast machine.trace machine.step.1
  /-- a call reads the words of the frame and then writes them, each up to the first that fails -/
  call : ∀ operand, machine.instruction? = some (.call operand) →
    let core := machine.core.advanced (Instruction.call operand).length
    ∃ fetched frame, machine.trace = fetched ++ frame ∧
      Follows ((Opcode.call operand.source).fetches (machine.core.get .ip)) fetched (.ok ()) ∧
      ((∃ fault, machine.step.1 = .error fault ∧ Follows core.frameReads frame (.error fault)) ∨
        ∃ reads writes verdict, frame = reads ++ writes ∧ Follows core.frameReads reads (.ok ()) ∧
          Follows core.frameWrites writes verdict ∧ machine.step.1 = verdict.map fun _ => false)
  /-- a step that fails behind a write is a call, and a device has refused to write a word of the frame
      at an address at which it had read one -/
  refused : ∀ fault, machine.step.1 = .error fault →
    (∃ event ∈ machine.trace, event.request.isWrite = true ∧ event.ending = .ok ()) →
    (∃ operand, machine.instruction? = some (.call operand)) ∧
      ∃ i < 10, ∃ region word, let address := machine.core.get .sp - 2 * .ofNat i
        machine.bus.owner address = some region ∧
        (machine.step.2.bus.owner address).map (·.withDevice ()) = some (region.withDevice ()) ∧
        ⟨address, .readWord, .ok ()⟩ ∈ machine.trace ∧
        ⟨address, .writeWord word, .error fault⟩ ∈ machine.trace

/-- A step leaves every address to the region that it belongs to. -/
theorem owner_step (machine : Machine δ) (a : Word) :
    (machine.step.2.bus.owner a).map (·.withDevice ()) =
      (machine.bus.owner a).map (·.withDevice ()) := by
  cases hm : machine.halted with
  | true => rw [step_of_halted hm]
  | false =>
    rw [bus_step hm]
    exact Bus.owner_eval _ machine.bus a

theorem writesLast_of_not_call (hi : ∀ operand, machine.instruction? ≠ some (.call operand)) :
    WritesLast machine.trace machine.step.1 := by
  cases hm : machine.halted with
  | true =>
    rw [trace, if_pos hm]
    exact writesLast_of_reads (List.forall_mem_nil _) _
  | false =>
    cases hinstr : machine.instruction? with
    | none =>
      obtain ⟨op, fault, -, -, hfollows⟩ := follows_of_instruction?_eq_none hm hinstr
      exact writesLast_of_reads
        (fun _ h => Opcode.isWrite_of_mem_fetches (hfollows.mem_plan h)) _
    | some i =>
      obtain ⟨bus, fetched, hfollows, htrace, hstep⟩ := split_of_instruction?_eq_some hinstr
      have hlast := perform_writesLast (fun operand heq => hi operand (heq ▸ hinstr))
        (machine.core.get .ip) (machine.core.advanced i.length) bus
      rw [htrace, hstep]
      exact hlast.append (fun _ h => Opcode.isWrite_of_mem_fetches (hfollows.mem_plan h))
        fun _ => map_eq_error_iff.mp

/-- The accesses of a call, part by part. -/
theorem order_of_call {operand : Operand} (hi : machine.instruction? = some (.call operand)) :
    let core := machine.core.advanced (Instruction.call operand).length
    ∃ fetched frame, machine.trace = fetched ++ frame ∧
      Follows ((Opcode.call operand.source).fetches (machine.core.get .ip)) fetched (.ok ()) ∧
      ((∃ fault, machine.step.1 = .error fault ∧ Follows core.frameReads frame (.error fault)) ∨
        ∃ reads writes verdict, frame = reads ++ writes ∧ Follows core.frameReads reads (.ok ()) ∧
          Follows core.frameWrites writes verdict ∧
          machine.step.1 = verdict.map fun _ => false) := by
  intro core
  obtain ⟨bus, fetched, hfetched, htrace, hstep⟩ := split_of_instruction?_eq_some hi
  have hframe : Follows (core.frameReads ++ core.frameWrites) _ _ :=
    (Microcode.perform_makes (i := .call operand) rfl (machine.core.get .ip) core).follows bus
  refine ⟨fetched, _, htrace, hfetched, ?_⟩
  rcases hframe.split with ⟨fault, hfault, hreads⟩ | ⟨reads, writes, hsplit, hreads, hwrites⟩
  · refine Or.inl ⟨fault, ?_, hreads⟩
    exact hstep.trans (map_eq_error_iff.mpr (map_eq_error_iff.mp hfault))
  · refine Or.inr ⟨reads, writes, _, hsplit, hreads, hwrites, ?_⟩
    rw [hstep]
    generalize (Microcode.perform _ _ _).eval bus = outcome
    obtain ⟨_ | _, bus'⟩ := outcome <;> rfl

/-- A call that fails behind a write has failed to write a word of the frame, all of which it has
    read. -/
theorem refused_of_call {operand : Operand} (hi : machine.instruction? = some (.call operand))
    {fault : Fault} (hfault : machine.step.1 = .error fault) {event : Event}
    (hevent : event ∈ machine.trace) (hwrite : event.request.isWrite = true) :
    ∃ a ∈ slots (machine.core.get .sp) 10, ∃ word,
      ⟨a, .readWord, .ok ()⟩ ∈ machine.trace ∧
        ⟨a, .writeWord word, .error fault⟩ ∈ machine.trace := by
  obtain ⟨fetched, frame, htrace, hfetched, hframe⟩ := order_of_call hi
  have hsp : (machine.core.advanced (Instruction.call operand).length).get .sp =
    machine.core.get .sp := Core.get_advanced_of_ne _ _ (by decide)
  rw [htrace] at hevent ⊢
  rcases List.mem_append.mp hevent with hevent | hevent
  · rw [Opcode.isWrite_of_mem_fetches (hfetched.mem_plan hevent)] at hwrite
    cases hwrite
  · rcases hframe with ⟨_, -, hreads⟩ | ⟨reads, writes, verdict, rfl, hreads, hwrites, hstep⟩
    · rw [Core.isWrite_of_mem_frameReads (hreads.mem_plan hevent)] at hwrite
      cases hwrite
    · rw [hstep] at hfault
      rw [map_eq_error_iff.mp hfault] at hwrites
      obtain ⟨a, request, hplan, hmem⟩ := hwrites.exists_failed
      obtain ⟨word, hslot, rfl⟩ := mem_wordWrites hplan
      have hread : ⟨a, .readWord, .ok ()⟩ ∈ reads :=
        hreads.mem_of_mem_plan (List.mem_map.mpr ⟨a, hslot, rfl⟩)
      rw [hsp] at hslot
      exact ⟨a, hslot, word, by simp [hread], by simp [hmem]⟩

/-- Writes come last, and a call makes none unless it could read all the words that it overwrites. -/
theorem writeOrder (machine : Machine δ) : machine.WriteOrder where
  single := writesLast_of_not_call
  call operand hi := order_of_call hi
  refused := by
    rintro fault hfault ⟨event, hevent, hwrite, hok⟩
    by_cases hi : ∃ operand, machine.instruction? = some (.call operand)
    · refine ⟨hi, ?_⟩
      obtain ⟨operand, hi⟩ := hi
      obtain ⟨a, hslot, word, hread, hrefused⟩ := refused_of_call hi hfault hevent hwrite
      obtain ⟨i, hlt, rfl⟩ := mem_slots_iff.mp hslot
      have hm := halted_of_step_eq_error hfault
      rw [trace_of_not_halted hm] at hread
      obtain ⟨region, howner⟩ := Bus.exists_owner_of_mem_trace hread rfl
      rw [← trace_of_not_halted hm] at hread
      refine ⟨i, hlt, region, word, howner, ?_, hread, hrefused⟩
      rw [owner_step, howner]
      rfl
    · have hlast := writesLast_of_not_call fun operand h => hi ⟨operand, h⟩
      rw [hlast.failed fault hfault event hevent hwrite] at hok
      cases hok

end Machine

/-- A device that holds nothing and refuses to store a word at one address. -/
structure Guarded where
  refused : Word

instance : Device Guarded where
  answer device address
    | .readByte => (.ok 0, device)
    | .readWord => (.ok 0, device)
    | .writeByte _ => (.ok (), device)
    | .writeWord _ =>
      if address = device.refused then (.error (.deviceFailure "refused"), device)
      else (.ok (), device)

namespace Machine

/-- A machine about to call a subroutine, whose stack refuses the fourth word of the frame. -/
def guardedStack : Machine (Ram ⊕ Guarded) :=
  ⟨.initial, (Bus.empty.map (.inl ⟨#[0x5e, 0, 7]⟩) 0 0x7fff true).map (.inr ⟨0xfff8⟩) 0xff00 0xffff
    false, false, #[]⟩

theorem refused_guardedStack :
    guardedStack.step.1 = .error (.deviceFailure "refused") ∧
      ∃ i < 10, ∃ word, ⟨0xfffe - 2 * .ofNat i, .readWord, .ok ()⟩ ∈ guardedStack.trace ∧
        ⟨0xfffe - 2 * .ofNat i, .writeWord word, .error (.deviceFailure "refused")⟩ ∈
          guardedStack.trace := by
  have hfault : guardedStack.step.1 = .error (.deviceFailure "refused") := by decide +kernel
  have hwritten : ∃ event ∈ guardedStack.trace,
      event.request.isWrite = true ∧ event.ending = .ok () := by decide +kernel
  obtain ⟨-, i, hi, region, word, -, -, hread, hrefused⟩ :=
    (writeOrder guardedStack).refused _ hfault hwritten
  exact ⟨hfault, i, hi, word, hread, hrefused⟩

end Machine

end WordMachine
