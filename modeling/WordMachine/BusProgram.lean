import WordMachine.Device
import WordMachine.LogEntry

/-!
# Bus programs

What an instruction does to the outside, as data: accesses to a device, each followed by a program
that depends on the reply, and entries to log. An access that fails ends the program.
`BusProgram.run` performs a program on a device.

* `run_bind`: what follows a program runs on the device and the log that the program left, and
  does not run if it failed.
* The programs are a lawful monad.
-/

namespace WordMachine

/-- Accesses and log entries one after the other, with a result of type `α` at the end. -/
inductive BusProgram (α : Type) where
  /-- ends with a result -/
  | done (result : α)
  /-- ends with a fault -/
  | fault (fault : Fault)
  /-- makes an access and goes on with the reply -/
  | access (address : Word) (request : Request) (next : request.Reply → BusProgram α)
  /-- logs an entry and goes on -/
  | log (entry : LogEntry) (next : BusProgram α)

namespace BusProgram

variable {α β γ : Type}

/-- Goes on with a program that depends on the result of the first. -/
def bind : BusProgram α → (α → BusProgram β) → BusProgram β
  | done result, next => next result
  | fault f, _ => fault f
  | access address request rest, next => access address request fun reply => (rest reply).bind next
  | log entry rest, next => log entry (rest.bind next)

instance : Monad BusProgram where
  pure := done
  bind := bind

/-! ## Running -/

/-- How a program ended, and the device and the log after it. -/
structure Outcome (α δ : Type) where
  result : Except Fault α
  device : δ
  log : Array LogEntry

/-- Performs a program on a device. -/
def run {δ : Type} [Device δ] : BusProgram α → δ → Array LogEntry → Outcome α δ
  | done result, device, entries => ⟨.ok result, device, entries⟩
  | fault f, device, entries => ⟨.error f, device, entries⟩
  | access address request next, device, entries =>
    match Device.answer device address request with
    | (.ok reply, device) => (next reply).run device entries
    | (.error f, device) => ⟨.error f, device, entries⟩
  | log entry next, device, entries => next.run device (entries.push entry)

/-! ## Laws of composition -/

theorem bind_done (p : BusProgram α) : p.bind done = p := by
  induction p with
  | done result => rfl
  | fault f => rfl
  | access address request next ih => simp only [bind, ih]
  | log entry next ih => simp only [bind, ih]

theorem bind_assoc (p : BusProgram α) (f : α → BusProgram β) (g : β → BusProgram γ) :
    (p.bind f).bind g = p.bind fun a => (f a).bind g := by
  induction p with
  | done result => rfl
  | fault f => rfl
  | access address request next ih => simp only [bind, ih]
  | log entry next ih => simp only [bind, ih]

instance : LawfulMonad BusProgram := LawfulMonad.mk'
  BusProgram bind_done (fun _ _ => rfl) bind_assoc

/-- Running a composition runs the second part on the device and the log that the first one left,
    unless the first one failed. -/
theorem run_bind {δ : Type} [Device δ] (p : BusProgram α) (next : α → BusProgram β) (device : δ)
    (entries : Array LogEntry) :
    (p.bind next).run device entries =
      match p.run device entries with
      | ⟨.ok a, device, entries⟩ => (next a).run device entries
      | ⟨.error f, device, entries⟩ => ⟨.error f, device, entries⟩ := by
  induction p generalizing device entries with
  | done result => rfl
  | fault reason => rfl
  | access address request rest ih =>
    simp only [bind, run]
    split
    · exact ih _ _ _
    · rfl
  | log entry next ih => exact ih _ _

end BusProgram

end WordMachine
