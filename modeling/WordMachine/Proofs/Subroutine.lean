import WordMachine.Proofs.Stack

/-!
# Calls and returns

A call stores the registers, the return address and the size of the caller's frame in ten words
below the stack pointer. A return that finds these words at its frame pointer is back in the caller,
whatever the subroutine has done to the rest of the machine. All of this is on buses of
random-access memories.

* `step_of_call`: what a call stores.
* `returnsTo_of_holds`: a return that finds the words of a call.
* `step_ret_after_call`: the round trip, and when it fails.
-/

namespace WordMachine

namespace Bus

/-- The words from an address on are a count and then as many words as it says, all of them inside
    the address space. -/
def HoldsArguments (bus : Bus Ram) (address : Nat) (count : Word) : Prop :=
  bus.word? address = some count ∧ address + 2 * count.toNat ≤ 0xffff ∧
    ∀ i ≤ count.toNat, (bus.word? (address + 2 * i)).isSome

instance (bus : Bus Ram) (address : Nat) (count : Word) :
    Decidable (bus.HoldsArguments address count) :=
  inferInstanceAs (Decidable (_ ∧ _ ∧ ∀ i ≤ count.toNat, _))

theorem holdsArguments_iff {bus : Bus Ram} {address : Nat} {count : Word} :
    bus.HoldsArguments address count ↔
      ∃ dropped, dropped.length = count.toNat ∧ bus.Holds address (count :: dropped) := by
  have hshift : ∀ i, address + 2 * (i + 1) = address + 2 + 2 * i := by
    intro i
    omega
  constructor
  · rintro ⟨hcount, -, h⟩
    obtain ⟨dropped, hlen, hdropped⟩ := (@exists_holds_iff bus (address + 2) count.toNat).mpr
      fun i hi => hshift i ▸ h (i + 1) hi
    exact ⟨dropped, hlen, hcount, hdropped⟩
  · rintro ⟨dropped, hlen, h⟩
    have hlast := h.lt (i := count.toNat) (by rw [List.length_cons]; omega)
    refine ⟨h.1, by omega, fun i hi => ?_⟩
    exact exists_holds_iff.mp ⟨_, rfl, h⟩ i (by rw [List.length_cons]; omega)

end Bus

namespace Core

variable {core : Core} {size ip count : Word} {saved : List Word}

/-! ## The core after a return -/

/-- Registers that are loaded with the values of a function have these values. -/
theorem get_setAll_map (rs : List Register) (f : Register → Word) (r : Register) :
    (core.setAll (rs.zip (rs.map f))).get r = if r ∈ rs then f r else core.get r := by
  induction rs generalizing core with
  | nil => rfl
  | cons s rs ih =>
    rw [List.map_cons, List.zip_cons_cons, setAll, ih, get_set]
    by_cases hs : s = r
    · subst hs
      simp
    · simp [hs, Ne.symm hs]

theorem frame_reverse (core : Core) :
    core.frame.reverse =
      (core.frameSize + 20) :: core.get .ip :: Register.general.reverse.map core.get := rfl

theorem frameSize_returned :
    (core.returned size ip saved count).frameSize = size - 20 - 2 * count := by
  rw [returned, frameSize_set, frameSize_setAll, frameSize_set]

theorem get_fp_returned : (core.returned size ip saved count).get .fp = core.get .fp + size := by
  rw [returned, get_set, if_pos rfl]

theorem get_ip_returned : (core.returned size ip saved count).get .ip = ip := by
  rw [returned, get_set, if_neg (by decide), get_setAll_of_notMem, get_set, if_pos rfl]
  intro p hp
  exact ne_of_mem_of_not_mem (List.of_mem_zip hp).1 (by decide)

/-- The registers other than the frame pointer after a return that loads the values of a function
    into the general registers. -/
theorem get_returned {f : Register → Word} {r : Register} (h : r ≠ .fp) :
    (core.returned size ip (Register.general.reverse.map f) count).get r =
      if r ∈ Register.general then f r
      else if r = .ip then ip
      else if r = .sp then core.get .fp + 22 + 2 * count
      else core.get r := by
  have hlow : ∀ (word size : Word), (⟨core.registers.set .sp word, size⟩ : Core).get r =
      (core.set .sp word).get r := fun _ _ => rfl
  rw [returned, get_set, if_neg (Ne.symm h), get_setAll_map, get_set, hlow, get_set]
  simp only [List.mem_reverse, eq_comm]

end Core

namespace Machine

/-! ## Steps on a bus of memories -/

section

variable {machine : Machine Ram} {i : Instruction} {b : Bool}

/-- The rest of an instruction is done on the bus as it was before the step. -/
theorem performs_of_instruction? (hi : machine.instruction? = some i)
    (h : machine.step.1 = .ok b) :
    (Microcode.perform (machine.core.get .ip) i).Completes (machine.core.advanced i.length)
      machine.bus () machine.step.2.core machine.step.2.bus ∧ b = (i.opcode == .halt) := by
  obtain ⟨j, bus, hj, hfetch, hperform, hb⟩ :=
    performs_of_step (instruction?_eq_some_iff.mp hi).1 h
  obtain rfl : i = j := Option.some.inj (hi.symm.trans hj)
  obtain rfl := Microcode.fetchInstruction_readsOnly.device_eq hfetch
  exact ⟨hperform, hb⟩

theorem step_of_instruction? (hi : machine.instruction? = some i) {core : Core} {bus : Bus Ram}
    (hp : (Microcode.perform (machine.core.get .ip) i).Completes (machine.core.advanced i.length)
      machine.bus () core bus) :
    machine.step.1 = .ok (i.opcode == .halt) ∧ machine.step.2.core = core ∧
      machine.step.2.bus = bus := by
  obtain ⟨hm, bus₁, hfetch⟩ := instruction?_eq_some_iff.mp hi
  obtain rfl := Microcode.fetchInstruction_readsOnly.device_eq hfetch
  exact step_of_performs hm hfetch hp

/-- A call that succeeds has begun a frame and stored the words of the old one. -/
theorem step_of_call {operand : Operand} (hi : machine.instruction? = some (.call operand))
    (h : machine.step.1 = .ok b) :
    b = false ∧
      Microcode.enter.Completes (machine.core.advanced (1 + operand.length)) machine.bus ()
        (machine.core.advanced (1 + operand.length)).entered machine.step.2.bus ∧
      machine.step.2.core = (machine.core.advanced (1 + operand.length)).entered.set .ip
        ((machine.core.advanced (1 + operand.length)).valueOf operand) := by
  obtain ⟨hperform, hb⟩ := performs_of_instruction? hi h
  rw [Microcode.perform, Microcode.completes_value_bind, Microcode.completes_log_bind,
    Microcode.completes_bind] at hperform
  obtain ⟨⟨⟩, core, bus, henter, hset⟩ := hperform
  obtain ⟨hcore, hbus⟩ := Microcode.completes_set.mp hset
  obtain ⟨_, -, -, rfl⟩ := Microcode.enter_completes_iff.mp henter
  refine ⟨hb, ?_, hcore⟩
  rw [hbus]
  exact henter

/-- A return succeeds if all the words that it loads can be read, and only then. -/
theorem step_of_ret (hi : machine.instruction? = some .ret) (h : machine.step.1 = .ok b) :
    Microcode.leave.Completes (machine.core.advanced 1) machine.bus () machine.step.2.core
      machine.step.2.bus := by
  obtain ⟨hperform, -⟩ := performs_of_instruction? hi h
  rw [Microcode.perform, Microcode.completes_bind] at hperform
  obtain ⟨⟨⟩, core, bus, hleave, hlog⟩ := hperform
  rw [Microcode.completes_get_bind, Microcode.completes_log] at hlog
  obtain ⟨hcore, hbus⟩ := hlog
  rw [hcore, hbus]
  exact hleave

theorem step_ret_of_leave (hi : machine.instruction? = some .ret) {core : Core} {bus : Bus Ram}
    (h : Microcode.leave.Completes (machine.core.advanced 1) machine.bus () core bus) :
    machine.step.1 = .ok false ∧ machine.step.2.core = core ∧ machine.step.2.bus = bus := by
  refine step_of_instruction? hi (Microcode.completes_bind.mpr ⟨(), core, bus, h, ?_⟩)
  rw [Microcode.completes_get_bind]
  exact Microcode.completes_log.mpr ⟨rfl, rfl⟩

end

/-! ## The round trip -/

/-- The machine is about to perform a call that succeeds and has room for its words. -/
structure Calls (caller : Machine Ram) (operand : Operand) : Prop where
  instruction : caller.instruction? = some (.call operand)
  step : caller.step.1 = .ok false
  room : 20 ≤ (caller.core.get .sp).toNat

instance (caller : Machine Ram) (operand : Operand) : Decidable (caller.Calls operand) :=
  decidable_of_iff (caller.instruction? = some (.call operand) ∧ caller.step.1 = .ok false ∧
      20 ≤ (caller.core.get .sp).toNat)
    ⟨fun h => ⟨h.1, h.2.1, h.2.2⟩, fun h => ⟨h.instruction, h.step, h.room⟩⟩

/-- The ten words that stand above the frame pointer at the beginning of a frame are the same in a
    later state of the machine, wherever the frame pointer is then. -/
def KeepsFrame (entry callee : Machine Ram) : Prop :=
  ∀ i < 10, callee.bus.word? ((entry.core.get .fp).toNat + 2 + 2 * i) =
    entry.bus.word? ((entry.core.get .fp).toNat + 2 + 2 * i)

instance (entry callee : Machine Ram) : Decidable (KeepsFrame entry callee) :=
  inferInstanceAs (Decidable (∀ i < 10, _))

/-- The machine `after` is the machine `callee` back in the frame in which `caller` made a call,
    with as many words dropped as `count` says. -/
structure ReturnsTo (caller : Machine Ram) (call : Instruction) (count : Word)
    (callee after : Machine Ram) : Prop where
  general : ∀ r ∈ Register.general, after.core.get r = caller.core.get r
  ip : after.core.get .ip = caller.core.get .ip + call.length
  sp : (after.core.get .sp).toNat = (caller.core.get .sp).toNat + 2 + 2 * count.toNat
  fp : after.core.get .fp = caller.core.get .sp + caller.core.frameSize
  frameSize : after.core.frameSize = caller.core.frameSize - 2 * count
  acc : after.core.get .acc = callee.core.get .acc
  bus : after.bus = callee.bus

section

variable {caller callee : Machine Ram} {operand : Operand} {b : Bool} {count : Word}

/-- The words that a call of a machine stores, in the order of their addresses. -/
def storedFrame (caller : Machine Ram) (operand : Operand) : List Word :=
  (caller.core.advanced (1 + operand.length)).frame.reverse

@[simp] theorem length_storedFrame (caller : Machine Ram) (operand : Operand) :
    (caller.storedFrame operand).length = 10 := rfl

/-- The pointers and the counter at the beginning of a frame. -/
theorem Calls.entry (h : caller.Calls operand) :
    caller.step.2.core.get .sp = caller.core.get .sp - 20 ∧
      caller.step.2.core.get .fp = caller.core.get .sp - 20 ∧ caller.step.2.core.frameSize = 0 := by
  obtain ⟨-, -, hcore⟩ := step_of_call h.instruction h.step
  refine ⟨?_, ?_, ?_⟩
  · rw [hcore, Core.get_set, if_neg (by decide), Core.get_entered, if_pos (Or.inl rfl),
      Core.get_advanced_of_ne _ _ (by decide)]
  · rw [hcore, Core.get_set, if_neg (by decide), Core.get_entered, if_pos (Or.inr rfl),
      Core.get_advanced_of_ne _ _ (by decide)]
  · rw [hcore, Core.frameSize_set, Core.frameSize_entered]

theorem Calls.toNat_fp (h : caller.Calls operand) :
    (caller.step.2.core.get .fp).toNat + 20 = (caller.core.get .sp).toNat := by
  have hroom := h.room
  have hle : (20 : Word) ≤ caller.core.get .sp := UInt16.le_iff_toNat_le.mpr hroom
  rw [h.entry.2.1, UInt16.toNat_sub_of_le _ _ hle, show (20 : Word).toNat = 20 from rfl]
  omega

/-- A call stores its words right above the new frame pointer and changes none above them. -/
theorem Calls.holds (h : caller.Calls operand) :
    caller.step.2.bus.Holds ((caller.step.2.core.get .fp).toNat + 2) (caller.storedFrame operand) ∧
      ∀ a, (caller.core.get .sp).toNat + 2 ≤ a →
        caller.step.2.bus.word? a = caller.bus.word? a := by
  obtain ⟨-, henter, -⟩ := step_of_call h.instruction h.step
  have hroom := h.room
  have hfp := h.toNat_fp
  have hsp : (caller.core.advanced (1 + operand.length)).get .sp = caller.core.get .sp :=
    Core.get_advanced_of_ne _ _ (by decide)
  obtain ⟨hholds, hkeep⟩ := Microcode.holds_of_enter henter (by rw [hsp]; exact hroom)
  rw [hsp, show (caller.core.get .sp).toNat - 18 = (caller.step.2.core.get .fp).toNat + 2 by omega]
    at hholds
  rw [hsp] at hkeep
  exact ⟨hholds, hkeep⟩

theorem KeepsFrame.holds (hcalls : caller.Calls operand) (h : KeepsFrame caller.step.2 callee) :
    callee.bus.Holds ((caller.step.2.core.get .fp).toNat + 2) (caller.storedFrame operand) := by
  refine hcalls.holds.1.congr fun i hi => h i ?_
  rwa [length_storedFrame] at hi

/-- The core that a return leaves when it has loaded the words of a call. -/
theorem returnsTo_of_core {after : Machine Ram}
    (hfp : (callee.core.get .fp).toNat + 20 = (caller.core.get .sp).toNat)
    (hlt : (caller.core.get .sp).toNat + 2 + 2 * count.toNat < 0x10000)
    (hcore : after.core = (callee.core.advanced 1).returned
      ((caller.core.advanced (1 + operand.length)).frameSize + 20)
      ((caller.core.advanced (1 + operand.length)).get .ip)
      (Register.general.reverse.map (caller.core.advanced (1 + operand.length)).get) count)
    (hbus : after.bus = callee.bus) : ReturnsTo caller (.call operand) count callee after := by
  have hword : callee.core.get .fp + 20 = caller.core.get .sp := by
    rw [← UInt16.toNat_inj, UInt16.toNat_add, show (20 : Word).toNat = 20 from rfl, hfp]
    exact Nat.mod_eq_of_lt (caller.core.get .sp).toNat_lt
  constructor
  · intro r hr
    have hfp : r ≠ .fp := ne_of_mem_of_not_mem hr (by decide)
    have hip : r ≠ .ip := ne_of_mem_of_not_mem hr (by decide)
    rw [hcore, Core.get_returned hfp, if_pos hr, Core.get_advanced_of_ne _ _ (Ne.symm hip)]
  · rw [hcore, Core.get_returned (by decide), if_neg (by decide), if_pos rfl, Core.get_advanced,
      if_pos rfl]
    rfl
  · rw [hcore, Core.get_returned (by decide), if_neg (by decide), if_neg (by decide), if_pos rfl,
      Core.get_advanced_of_ne _ _ (by decide), UInt16.toNat_add, UInt16.toNat_add, UInt16.toNat_mul,
      show (22 : Word).toNat = 22 from rfl, show (2 : Word).toNat = 2 from rfl]
    omega
  · rw [hcore, Core.get_fp_returned, Core.get_advanced_of_ne _ _ (by decide), ← hword,
      Core.frameSize_advanced]
    grind
  · rw [hcore, Core.frameSize_returned, Core.frameSize_advanced]
    grind
  · rw [hcore, Core.get_returned (by decide), if_neg (by decide), if_neg (by decide),
      if_neg (by decide), Core.get_advanced_of_ne _ _ (by decide)]
  · exact hbus

/-- A return that finds the words of a call at its frame pointer, and above them the arguments, is
    back in the frame of the caller. -/
theorem returnsTo_of_holds {dropped : List Word} (hret : callee.instruction? = some .ret)
    (hfp : (callee.core.get .fp).toNat + 20 = (caller.core.get .sp).toNat)
    (hlen : dropped.length = count.toNat)
    (hframe : callee.bus.Holds ((callee.core.get .fp).toNat + 2) (caller.storedFrame operand))
    (hdropped : callee.bus.Holds ((caller.core.get .sp).toNat + 2) (count :: dropped)) :
    callee.step.1 = .ok false ∧ ReturnsTo caller (.call operand) count callee callee.step.2 := by
  have hlast := hdropped.lt (i := count.toNat) (by simp [hlen])
  have hholds : callee.bus.Holds ((callee.core.get .fp).toNat + 2)
      (caller.storedFrame operand ++ count :: dropped) := by
    refine Bus.holds_append.mpr ⟨hframe, ?_⟩
    rwa [length_storedFrame, show (callee.core.get .fp).toNat + 2 + 2 * 10 =
      (caller.core.get .sp).toNat + 2 by omega]
  have hleave := (@Microcode.leave_completes_iff (callee.core.advanced 1) _ _ _).mpr
    ⟨_, _, Register.general.reverse.map (caller.core.advanced (1 + operand.length)).get, count,
      dropped, rfl, hlen, by rwa [Core.get_advanced_of_ne _ _ (by decide)], rfl, rfl⟩
  obtain ⟨hok, hcore, hbus⟩ := step_ret_of_leave hret hleave
  exact ⟨hok, returnsTo_of_core hfp (by omega) hcore hbus⟩

/-- The words that a return has loaded. -/
theorem holds_of_step_ret (hret : callee.instruction? = some .ret) (h : callee.step.1 = .ok b) :
    ∃ size saved count dropped, saved.length = 8 ∧ dropped.length = count.toNat ∧
      callee.bus.Holds ((callee.core.get .fp).toNat + 2)
        (size :: callee.step.2.core.get .ip :: saved) ∧
      callee.bus.Holds ((callee.core.get .fp).toNat + 22) (count :: dropped) := by
  obtain ⟨size, ip, saved, count, dropped, hlen, hlen', hholds, hcore, -⟩ :=
    Microcode.leave_completes_iff.mp (step_of_ret hret h)
  rw [Core.get_advanced_of_ne _ _ (by decide)] at hholds
  have hsplit : callee.bus.Holds ((callee.core.get .fp).toNat + 2)
      ((size :: ip :: saved) ++ count :: dropped) := hholds
  obtain ⟨hsaved, hdropped⟩ := Bus.holds_append.mp hsplit
  rw [List.length_cons, List.length_cons, hlen] at hdropped
  rw [hcore, Core.get_ip_returned]
  exact ⟨size, saved, count, dropped, hlen, hlen', hsaved, hdropped⟩

/-- A return that succeeds with its frame pointer at the words of a call is back in the frame of the
    caller. -/
theorem returnsTo_of_step (hcalls : caller.Calls operand) (hret : callee.instruction? = some .ret)
    (hfp : callee.core.get .fp = caller.step.2.core.get .fp)
    (hframe : KeepsFrame caller.step.2 callee) (h : callee.step.1 = .ok b) :
    ∃ count, ReturnsTo caller (.call operand) count callee callee.step.2 := by
  obtain ⟨_, _, count, dropped, -, hlen, -, hdropped⟩ := holds_of_step_ret hret h
  have hholds := hframe.holds hcalls
  have htop := hcalls.toNat_fp
  rw [← hfp] at hholds htop
  rw [show (callee.core.get .fp).toNat + 22 = (caller.core.get .sp).toNat + 2 by omega] at hdropped
  exact ⟨count, (returnsTo_of_holds hret htop hlen hholds hdropped).2⟩

/-- A return is back in the caller, whatever has happened since the call, as long as the frame
    pointer and the ten words of the call are intact and the arguments can be dropped. It fails
    otherwise. -/
theorem step_ret_after_call (hcall : caller.instruction? = some (.call operand))
    (hstep : caller.step.1 = .ok b) (hroom : 20 ≤ (caller.core.get .sp).toNat)
    (hret : callee.instruction? = some .ret)
    (hfp : (callee.core.get .fp).toNat = (caller.core.get .sp).toNat - 20)
    (hframe : ∀ i < 10, callee.bus.word? ((caller.core.get .sp).toNat - 2 * i) =
      caller.step.2.bus.word? ((caller.core.get .sp).toNat - 2 * i)) :
    (∀ count, callee.bus.HoldsArguments ((caller.core.get .sp).toNat + 2) count →
      callee.step.1 = .ok false ∧ ReturnsTo caller (.call operand) count callee callee.step.2) ∧
    ((¬∃ count, callee.bus.HoldsArguments ((caller.core.get .sp).toNat + 2) count) →
      ∃ fault, callee.step.1 = .error fault ∧ callee.step.2.core = callee.core) := by
  have hcalls : caller.Calls operand := by
    obtain ⟨rfl, -⟩ := step_of_call hcall hstep
    exact ⟨hcall, hstep, hroom⟩
  have hentry := hcalls.toNat_fp
  have hkeeps : KeepsFrame caller.step.2 callee := by
    intro i hi
    have h := hframe (9 - i) (by omega)
    rwa [show (caller.core.get .sp).toNat - 2 * (9 - i) =
      (caller.step.2.core.get .fp).toNat + 2 + 2 * i by omega] at h
  have hholds := hkeeps.holds hcalls
  rw [show (caller.step.2.core.get .fp).toNat = (callee.core.get .fp).toNat by omega] at hholds
  constructor
  · intro count hcount
    obtain ⟨dropped, hlen, hdropped⟩ := Bus.holdsArguments_iff.mp hcount
    exact returnsTo_of_holds hret (by omega) hlen hholds hdropped
  · intro hnone
    cases h : callee.step.1 with
    | error fault => exact ⟨fault, rfl, (core_of_step_eq_error h).1⟩
    | ok b =>
      obtain ⟨_, _, count, dropped, -, hlen, -, hdropped⟩ := holds_of_step_ret hret h
      rw [show (callee.core.get .fp).toNat + 22 = (caller.core.get .sp).toNat + 2 by omega]
        at hdropped
      exact absurd ⟨count, Bus.holdsArguments_iff.mpr ⟨dropped, hlen, hdropped⟩⟩ hnone

end

/-- A machine that has pushed an argument and its count and is about to call a return. -/
def atCall : Machine Ram :=
  (loaded #[0x17, 0, 5, 0x17, 0, 1, 0x5e, 0, 10, 0xff, 0x60]).after 2

/-- The machine in the subroutine, which has written a register and left a word on the stack. -/
def atReturn : Machine Ram :=
  { atCall.step.2 with core := (atCall.step.2.core.set .r3 99).pushed }

theorem step_ret_atReturn :
    atReturn.step.1 = .ok false ∧
      ReturnsTo atCall (.call (.literal 10)) 1 atReturn atReturn.step.2 := by
  have hrun : atCall.instruction? = some (.call (.literal 10)) ∧ atCall.step.1 = .ok false ∧
      20 ≤ (atCall.core.get .sp).toNat ∧ atReturn.instruction? = some .ret ∧
      (atReturn.core.get .fp).toNat = (atCall.core.get .sp).toNat - 20 ∧
      (∀ i < 10, atReturn.bus.word? ((atCall.core.get .sp).toNat - 2 * i) =
        atCall.step.2.bus.word? ((atCall.core.get .sp).toNat - 2 * i)) ∧
      atReturn.bus.HoldsArguments ((atCall.core.get .sp).toNat + 2) 1 := by
    decide +kernel
  obtain ⟨hcall, hstep, hroom, hret, hfp, hframe, hcount⟩ := hrun
  exact (step_ret_after_call hcall hstep hroom hret hfp hframe).1 1 hcount

end Machine

end WordMachine
