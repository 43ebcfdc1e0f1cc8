import WordMachine.Proofs.Layout
import WordMachine.Proofs.Running
import WordMachine.Proofs.WriteOrder

/-!
# Instructions that fail

An instruction that fails leaves the core and the halt flag as they were, whatever the devices. On a
bus of memories it changes no byte either. Most instructions store nothing before the last access
that can fail. A call stores the ten words of a frame, and reads the same ten words first: if they
can be read they can be stored, since an access changes no range of a region and no size of a memory.

* `ending_ne_ok_of_step_eq_error`: a step that fails has stored nothing.
* `bus_of_verdict`, `bus_of_step_eq_error`: no step that fails changes a byte.
* `unchanged_of_step_eq_error`: a machine whose step fails stays as it is and fails again.
-/

namespace WordMachine

variable {α δ : Type}

/-! ## Accesses that change nothing -/

/-- How the accesses of a program on a bus of memories end is known from the layout. -/
theorem Bus.ending_of_mem_trace {p : BusProgram α} {bus : Bus Ram} {event : Event}
    (h : event ∈ p.trace bus) :
    event.ending = bus.layout.verdict event.address event.request.width := by
  have hinv : ∀ bus' : Bus Ram, bus'.layout = bus.layout → ∀ address request,
      Device.ending bus' address request = bus.layout.verdict address request.width ∧
        (bus'.answer address request).2.layout = bus.layout := by
    intro bus' hlayout address request
    rw [ending_answer, hlayout]
    exact ⟨rfl, (layout_answer bus' address request).trans hlayout⟩
  exact BusProgram.ending_of_mem_trace hinv rfl h

/-- A program changes neither the ranges of the regions nor the sizes of the memories. -/
theorem Bus.layout_eval (p : BusProgram α) (bus : Bus Ram) :
    (p.eval bus).2.layout = bus.layout := by
  induction p generalizing bus with
  | done result => rfl
  | fault f => rfl
  | access address request next ih =>
    have hanswer : (Device.answer bus address request).2.layout = bus.layout :=
      layout_answer bus address request
    rw [BusProgram.eval]
    generalize Device.answer bus address request = outcome at hanswer
    obtain ⟨f | reply, bus₁⟩ := outcome
    · exact hanswer
    · exact (ih reply bus₁).trans hanswer
  | log entry next ih => exact ih bus

/-- Only writes that succeed change a device. -/
def Device.OnlyWritesChange [Device δ] (device : δ) : Prop :=
  ∀ address request,
    (request.isWrite = false ∨ ∃ f, (answer device address request).1 = .error f) →
      (answer device address request).2 = device

theorem Bus.onlyWritesChange (bus : Bus Ram) : Device.OnlyWritesChange bus := by
  rintro address request (hread | ⟨f, herror⟩)
  · exact answer_read address hread
  · exact answer_of_error herror

/-- A program leaves such a device as it is if no write succeeds. -/
theorem BusProgram.device_of_trace [Device δ] {p : BusProgram α} {device : δ}
    (hdevice : Device.OnlyWritesChange device)
    (h : ∀ event ∈ p.trace device, event.request.isWrite = true → event.ending ≠ .ok ()) :
    (p.eval device).2 = device := by
  induction p with
  | done result => rfl
  | fault f => rfl
  | access address request next ih =>
    rw [trace] at h
    rw [eval]
    have hkeep := hdevice address request
    generalize Device.answer device address request = outcome at h hkeep ⊢
    obtain ⟨f | reply, device₁⟩ := outcome
    · exact hkeep (Or.inr ⟨f, rfl⟩)
    · have hnot : request.isWrite = false := by
        rw [← Bool.not_eq_true]
        exact fun hwrite => h _ List.mem_cons_self hwrite rfl
      obtain rfl : device₁ = device := hkeep (Or.inl hnot)
      exact ih reply fun event hevent => h event (List.mem_cons_of_mem _ hevent)
  | log entry next ih => exact ih h

/-! ## Machines that are stuck -/

namespace Machine

/-- A machine has the registers, the counter, the halt flag and the devices of another. -/
structure SameState (machine machine' : Machine δ) : Prop where
  core : machine.core = machine'.core
  bus : machine.bus = machine'.bus
  halted : machine.halted = machine'.halted

/-- A machine after one failed step and then any number of runs of any length. -/
inductive Later [Device δ] (machine : Machine δ) : Machine δ → Prop
  | failed : machine.Later machine.step.2
  | step {later : Machine δ} : machine.Later later → machine.Later later.step.2
  | run {later : Machine δ} (fuel : Nat) : machine.Later later → machine.Later (later.run fuel).2
  | runFor {later : Machine δ} (steps : Nat) :
      machine.Later later → machine.Later (later.runFor steps).2

/-- A machine in the state of another fails with a fault whatever it is asked to do. -/
structure Stuck [Device δ] (machine later : Machine δ) (fault : Fault) : Prop where
  sameState : later.SameState machine
  step : later.step.1 = .error fault
  run : ∀ fuel, (later.run (fuel + 1)).1 = some (.error fault)
  runFor : ∀ steps, (later.runFor (steps + 1)).1 = .error fault

section

variable {machine later : Machine Ram} {fault : Fault}

/-- How a step ends depends on the state only. -/
theorem SameState.step_eq [Device δ] {machine machine' : Machine δ}
    (h : machine.SameState machine') : machine.step.1 = machine'.step.1 := by
  cases hhalted : machine'.halted with
  | true => rw [step_of_halted hhalted, step_of_halted (h.halted.trans hhalted)]
  | false =>
    have heval := step_eq_eval (h.halted.trans hhalted)
    rw [h.core, h.bus] at heval
    exact (Prod.mk.inj (heval.trans (step_eq_eval hhalted).symm)).1

/-- If addresses and widths decide how the accesses of a step end, no write succeeds in a step that
    fails: what a call has read, it can write. -/
theorem ending_ne_ok_of_step_eq_error [Device δ] {machine : Machine δ}
    {verdict : Word → Nat → Except Fault Unit}
    (hverdict : ∀ event ∈ machine.trace, event.ending = verdict event.address event.request.width)
    (h : machine.step.1 = .error fault) {event : Event} (hevent : event ∈ machine.trace)
    (hwrite : event.request.isWrite = true) : event.ending ≠ .ok () := by
  intro hok
  by_cases hi : ∃ operand, machine.instruction? = some (.call operand)
  · obtain ⟨operand, hi⟩ := hi
    obtain ⟨a, -, word, hread, hrefused⟩ := refused_of_call hi h hevent hwrite
    have hending := (hverdict _ hread).trans (hverdict _ hrefused).symm
    cases hending
  · have hlast := writesLast_of_not_call fun operand hcall => hi ⟨operand, hcall⟩
    rw [hlast.failed fault h event hevent hwrite] at hok
    cases hok

/-- A step that fails leaves the bus as it is if addresses and widths decide how its accesses end. -/
theorem bus_of_verdict [Device δ] {machine : Machine δ} {verdict : Word → Nat → Except Fault Unit}
    (hbus : Device.OnlyWritesChange machine.bus)
    (hverdict : ∀ event ∈ machine.trace, event.ending = verdict event.address event.request.width)
    (h : machine.step.1 = .error fault) : machine.step.2.bus = machine.bus := by
  have hm := halted_of_step_eq_error h
  rw [bus_step hm]
  refine BusProgram.device_of_trace hbus fun event hevent hwrite => ?_
  rw [← trace_of_not_halted hm] at hevent
  exact ending_ne_ok_of_step_eq_error hverdict h hevent hwrite

theorem bus_of_step_eq_error (h : machine.step.1 = .error fault) :
    machine.step.2.bus = machine.bus := by
  have hverdict : ∀ event ∈ machine.trace,
      event.ending = machine.bus.layout.verdict event.address event.request.width := by
    intro event hevent
    rw [trace_of_not_halted (halted_of_step_eq_error h)] at hevent
    exact Bus.ending_of_mem_trace hevent
  exact bus_of_verdict machine.bus.onlyWritesChange hverdict h

theorem sameState_of_step_eq_error (h : machine.step.1 = .error fault) :
    machine.step.2.SameState machine :=
  ⟨(core_of_step_eq_error h).1, bus_of_step_eq_error h, (core_of_step_eq_error h).2⟩

theorem run_of_step_eq_error (h : machine.step.1 = .error fault) (fuel : Nat) :
    machine.run (fuel + 1) = (some (.error fault), machine.step.2) := by
  rw [run_succ_of_ne (by rw [h]; exact nofun), h]
  rfl

theorem runFor_of_step_eq_error (h : machine.step.1 = .error fault) (steps : Nat) :
    machine.runFor (steps + 1) = (.error fault, machine.step.2) := by
  rw [runFor_succ_of_ne (by rw [h]; exact nofun), ← h]

theorem SameState.trans {machine machine' machine'' : Machine δ} (h : machine.SameState machine')
    (h' : machine'.SameState machine'') : machine.SameState machine'' :=
  ⟨h.core.trans h'.core, h.bus.trans h'.bus, h.halted.trans h'.halted⟩

theorem stuck_of_sameState (h : machine.step.1 = .error fault) (hsame : later.SameState machine) :
    Stuck machine later fault := by
  have hstep := hsame.step_eq.trans h
  refine ⟨hsame, hstep, fun fuel => ?_, fun steps => ?_⟩
  · rw [run_of_step_eq_error hstep]
  · rw [runFor_of_step_eq_error hstep]

theorem Stuck.next (h : machine.step.1 = .error fault) (hstuck : Stuck machine later fault) :
    Stuck machine later.step.2 fault :=
  stuck_of_sameState h ((sameState_of_step_eq_error hstuck.step).trans hstuck.sameState)

/-- No run gets a machine on a bus of memories out of the state in which a step has failed. -/
theorem stuck_of_later (h : machine.step.1 = .error fault) (hlater : machine.Later later) :
    Stuck machine later fault := by
  induction hlater with
  | failed => exact stuck_of_sameState h (sameState_of_step_eq_error h)
  | step _ ih => exact ih.next h
  | run fuel _ ih =>
    cases fuel with
    | zero => exact ih
    | succ fuel =>
      rw [run_of_step_eq_error ih.step]
      exact ih.next h
  | runFor steps _ ih =>
    cases steps with
    | zero => exact ih
    | succ steps =>
      rw [runFor_of_step_eq_error ih.step]
      exact ih.next h

end

/-- A step that fails changes neither the registers nor the counter nor the halt flag. On a bus of
    memories it changes nothing at all, so that the machine fails again whenever it is asked to go
    on. -/
theorem unchanged_of_step_eq_error :
    (∀ {δ : Type} [Device δ] (machine : Machine δ) (fault : Fault),
      machine.step.1 = .error fault →
        machine.step.2.core = machine.core ∧ machine.step.2.halted = machine.halted) ∧
    ∀ (machine : Machine Ram) (fault : Fault), machine.step.1 = .error fault →
      ∀ later, machine.Later later → Stuck machine later fault :=
  ⟨fun _ _ h => core_of_step_eq_error h, fun _ _ h _ hlater => stuck_of_later h hlater⟩

/-- A machine about to call a subroutine, with room for two of the ten words of the frame. -/
def withoutRoom : Machine Ram :=
  let machine := loaded #[0x5e, 0, 7]
  { machine with core := machine.core.set .sp 0xffa2 }

theorem stuck_withoutRoom :
    withoutRoom.step.1 = .error (.unmapped 0xff9e) ∧
      Stuck withoutRoom (withoutRoom.step.2.run 3).2 (.unmapped 0xff9e) := by
  have hfail : withoutRoom.step.1 = .error (.unmapped 0xff9e) := by decide +kernel
  exact ⟨hfail, unchanged_of_step_eq_error.2 withoutRoom _ hfail _ (.run 3 .failed)⟩

end Machine

end WordMachine
