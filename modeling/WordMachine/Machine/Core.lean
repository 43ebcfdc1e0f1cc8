import WordMachine.RegisterFile

/-!
# The core

The state that an instruction gives back when it fails: the registers and the size of the stack
frame that is being built.
-/

namespace WordMachine

/-- The part of the machine that a failed instruction does not change. -/
structure Core where
  registers : RegisterFile
  /-- how many bytes the current frame has on the stack, as pushes, pops, calls and returns count
      them -/
  frameSize : Word
deriving DecidableEq, Repr

namespace Core

/-- The core after a reset. -/
def initial : Core := ⟨.initial, 0⟩

/-- The value of a register. -/
def get (core : Core) (r : Register) : Word := core.registers.get r

/-- The core after a value is written to a register. -/
def set : Core → Register → Word → Core
  | ⟨registers, frameSize⟩, r, value => ⟨registers.set r value, frameSize⟩

/-- The core after a word was stored at the top of the stack. The stack pointer wraps around. -/
def pushed (core : Core) : Core :=
  ⟨core.registers.set .sp (core.get .sp - 2), core.frameSize + 2⟩

/-- The core when the word at the top of the stack is about to be loaded. The stack must not be at
    the end of the address space. -/
def popped (core : Core) : Except Fault Core :=
  match effectiveAddress (core.get .sp) 2 with
  | .ok top => .ok ⟨core.registers.set .sp top, core.frameSize - 2⟩
  | .error fault => .error fault

@[simp] theorem get_set (core : Core) (r s : Register) (value : Word) :
    (core.set r value).get s = if r = s then value else core.get s :=
  core.registers.get_set r s value

@[simp] theorem frameSize_set (core : Core) (r : Register) (value : Word) :
    (core.set r value).frameSize = core.frameSize := rfl

@[simp] theorem get_pushed (core : Core) (r : Register) :
    core.pushed.get r = if .sp = r then core.get .sp - 2 else core.get r :=
  core.registers.get_set .sp r _

@[simp] theorem frameSize_pushed (core : Core) : core.pushed.frameSize = core.frameSize + 2 := rfl

end Core

end WordMachine
