import WordMachine.Bus
import WordMachine.Machine.Instruction
import WordMachine.MemoryView

/-!
# The machine

A core on a bus. `Machine.step` performs one instruction: if it fails, the core is as before while
what devices did and what was logged stays. `Machine.run` and `Machine.runFor` repeat it, the one
until the machine halts and the other for a number of steps.

* `core_of_step_eq_error`: an instruction that fails leaves the core and the halt flag as they were.
* `runFor_of_halted`: a machine that has halted does nothing.
* `runFor_add`: running for `n + m` steps is running for `n` and then, unless that failed, for `m`.
-/

namespace WordMachine

/-- A machine whose devices are of type `δ`. -/
structure Machine (δ : Type) where
  core : Core
  bus : Bus δ
  halted : Bool
  /-- what was logged so far, the oldest entry first -/
  log : Array LogEntry

namespace Machine

variable {δ : Type}

/-- A machine after a reset, with no device on its bus. -/
def initial : Machine δ := ⟨.initial, .empty, false, #[]⟩

/-! ## Registers -/

/-- The value of the register of the given name. -/
def register (machine : Machine δ) (name : String) : Except Fault Word :=
  machine.core.get <$> Register.ofName name

/-- Writes a value to the register of the given name. -/
def setRegister (machine : Machine δ) (name : String) (value : Word) :
    Except Fault (Machine δ) :=
  (fun r => { machine with core := machine.core.set r value }) <$> Register.ofName name

/-! ## Devices -/

/-- Puts a device on the bus, over the addresses from `first` to `last`. The result holds the
    number of the new region. -/
def map : Machine δ → δ → (first last : Word) → (remap : Bool) → Nat × Machine δ
  | ⟨core, bus, halted, log⟩, device, first, last, remap =>
    (bus.nextId, ⟨core, bus.map device first last remap, halted,
      log.push (.mapped bus.nextId first last remap)⟩)

/-- Takes the device of the region with the given number off the bus, if it is there. -/
def unmap : Machine δ → Nat → Option δ × Machine δ
  | ⟨core, bus, halted, log⟩, id =>
    match bus.unmap id with
    | some (device, bus) => (some device, ⟨core, bus, halted, log.push (.unmapped id)⟩)
    | none => (none, ⟨core, bus, halted, log⟩)

section

variable [Device δ]

/-- Makes an access to the bus. -/
def access : Machine δ → Word → (request : Request) → Except Fault request.Reply × Machine δ
  | ⟨core, bus, halted, log⟩, address, request =>
    match bus.answer address request with
    | (reply, bus) => (reply, ⟨core, bus, halted, log⟩)

/-- Writes bytes to the bus from an address on. -/
def write : Machine δ → Word → List Byte → Except Fault Unit × Machine δ
  | ⟨core, bus, halted, log⟩, address, bytes =>
    match bus.write address bytes with
    | (result, bus) => (result, ⟨core, bus, halted, log⟩)

/-- The text of `count` bytes on the bus from an address on. -/
def view : Machine δ → Word → (count : Nat) → Except Fault String × Machine δ
  | ⟨core, bus, halted, log⟩, address, count =>
    match bus.read address count with
    | (bytes, bus) =>
      ((MemoryView.text address ·.toList) <$> bytes, ⟨core, bus, halted, log⟩)

/-! ## The stack -/

/-- Pushes a word from outside. -/
def push : Machine δ → Word → Except Fault Unit × Machine δ
  | ⟨core, bus, halted, log⟩, value =>
    match bus.answer (core.get .sp) (.writeWord value) with
    | (.ok _, bus) => (.ok (), ⟨core.pushed, bus, halted, log⟩)
    | (.error fault, bus) => (.error fault, ⟨core, bus, halted, log⟩)

/-- Pops a word from outside. The stack pointer has moved even if the word cannot be read. -/
def pop : Machine δ → Except Fault Word × Machine δ
  | ⟨core, bus, halted, log⟩ =>
    match core.popped with
    | .ok core =>
      match bus.answer (core.get .sp) .readWord with
      | (reply, bus) => (reply, ⟨core, bus, halted, log⟩)
    | .error fault => (.error fault, ⟨core, bus, halted, log⟩)

/-! ## Running -/

/-- Performs one instruction, unless the machine has halted. The result says whether the machine
    is halted now. -/
def step : Machine δ → Except Fault Bool × Machine δ
  | ⟨core, bus, true, log⟩ => (.ok true, ⟨core, bus, true, log⟩)
  | ⟨core, bus, false, log⟩ =>
    match (Microcode.instruction core).run bus log with
    | ⟨.ok (true, core), bus, log⟩ =>
      (.ok true, ⟨core, bus, true, log.push (.halted (core.get .ip))⟩)
    | ⟨.ok (false, core), bus, log⟩ => (.ok false, ⟨core, bus, false, log⟩)
    | ⟨.error fault, bus, log⟩ => (.error fault, ⟨core, bus, false, log⟩)

/-- Performs instructions until the machine halts or one of them fails, but no more than `fuel`.
    The result is missing if the fuel did not suffice. -/
def run : (fuel : Nat) → Machine δ → Option (Except Fault Unit) × Machine δ
  | 0, machine => (none, machine)
  | fuel + 1, machine =>
    match machine.step with
    | (.ok true, machine) => (some (.ok ()), machine)
    | (.ok false, machine) => run fuel machine
    | (.error fault, machine) => (some (.error fault), machine)

/-- Performs at most `steps` instructions, fewer if the machine halts or one of them fails. The
    result says whether the machine is halted. -/
def runFor : (steps : Nat) → Machine δ → Except Fault Bool × Machine δ
  | 0, machine => (.ok machine.halted, machine)
  | steps + 1, machine =>
    match machine.step with
    | (.ok true, machine) => (.ok true, machine)
    | (.ok false, machine) => runFor steps machine
    | (.error fault, machine) => (.error fault, machine)

/-! ## Laws of running -/

theorem step_of_halted {machine : Machine δ} (h : machine.halted = true) :
    machine.step = (.ok true, machine) := by
  obtain ⟨core, bus, halted, log⟩ := machine
  cases h
  rfl

theorem core_of_step_eq_error {machine : Machine δ} {fault : Fault}
    (h : machine.step.1 = .error fault) :
    machine.step.2.core = machine.core ∧ machine.step.2.halted = machine.halted := by
  obtain ⟨core, bus, halted, log⟩ := machine
  cases halted with
  | true => cases h
  | false =>
    rw [step] at h ⊢
    split
    next heq =>
      rw [heq] at h
      cases h
    next heq =>
      rw [heq] at h
      cases h
    next => exact ⟨rfl, rfl⟩

/-- The result of a step is the halt flag after it. -/
theorem halted_of_step_eq_ok {machine : Machine δ} {b : Bool} (h : machine.step.1 = .ok b) :
    machine.step.2.halted = b := by
  obtain ⟨core, bus, halted, log⟩ := machine
  cases halted with
  | true =>
    cases h
    rfl
  | false =>
    rw [step] at h ⊢
    split
    next heq =>
      rw [heq] at h
      cases h
      rfl
    next heq =>
      rw [heq] at h
      cases h
      rfl
    next heq =>
      rw [heq] at h
      cases h

theorem runFor_of_halted {machine : Machine δ} (h : machine.halted = true) (steps : Nat) :
    machine.runFor steps = (.ok true, machine) := by
  cases steps with
  | zero => rw [runFor, h]
  | succ steps => rw [runFor, step_of_halted h]

theorem runFor_add (machine : Machine δ) (n m : Nat) :
    machine.runFor (n + m) =
      match machine.runFor n with
      | (.ok _, machine) => machine.runFor m
      | (.error fault, machine) => (.error fault, machine) := by
  induction n generalizing machine with
  | zero => rw [Nat.zero_add, runFor]
  | succ n ih =>
    rw [Nat.succ_add, runFor, runFor]
    have hhalt := @halted_of_step_eq_ok δ _ machine true
    generalize machine.step = outcome at hhalt
    obtain ⟨result, next⟩ := outcome
    rcases result with fault | halted
    · rfl
    · cases halted with
      | false => exact ih next
      | true => exact (runFor_of_halted (hhalt rfl) m).symm

end

end Machine

end WordMachine
