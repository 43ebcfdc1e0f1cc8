import WordMachine.Proofs.FrameCounter
import WordMachine.Proofs.Subroutine

/-!
# Nested calls

A chain of calls, each from the subroutine that the one before has begun, leaves a chain of frames
on the stack. Every frame stores the size of the one that has made the call, and the words of the
frame stand between the two frame pointers, so that each return finds the next frame wherever it
begins. What the program does between its pushes, calls and returns does not matter as long as it
leaves the stack alone.

* `pushed_of_pushing`: the stack after the pushes of a frame.
* `stored_of_descent`: the chain of frames after a number of nested calls.
* `unwinds_of_descent`: the returns from nested calls of any depth.
-/

namespace WordMachine

namespace Bus

variable {bus bus' bus₂ : Bus Ram} {address : Nat}

/-- The words from an address on, two bytes apart, are the same on two buses. -/
def AgreesFrom (bus bus' : Bus Ram) (address : Nat) : Prop :=
  ∀ i, bus'.word? (address + 2 * i) = bus.word? (address + 2 * i)

theorem AgreesFrom.trans (h : bus.AgreesFrom bus' address) (h' : bus'.AgreesFrom bus₂ address) :
    bus.AgreesFrom bus₂ address := fun i => (h' i).trans (h i)

theorem AgreesFrom.above (h : bus.AgreesFrom bus' address) (n : Nat) :
    bus.AgreesFrom bus' (address + 2 * n) := by
  intro i
  have := h (n + i)
  rwa [show address + 2 * (n + i) = address + 2 * n + 2 * i by omega] at this

theorem AgreesFrom.holds (h : bus.AgreesFrom bus' address) {words : List Word}
    (hw : bus.Holds address words) : bus'.Holds address words :=
  hw.congr fun i _ => h i

end Bus

namespace Core

/-- What tells where the stack and the frame are. -/
def pointers (core : Core) : Word × Word × Word := (core.get .sp, core.get .fp, core.frameSize)

theorem pointers_set (core : Core) {r : Register} (hsp : r ≠ .sp) (hfp : r ≠ .fp) (word : Word) :
    (core.set r word).pointers = core.pointers := by
  rw [pointers, pointers, get_set, get_set, if_neg hsp, if_neg hfp, frameSize_set]

theorem pointers_pushed {core core' : Core} (h : core'.pointers = core.pointers) :
    core'.pushed.pointers = core.pushed.pointers := by
  simp only [pointers, Prod.mk.injEq] at h
  obtain ⟨hsp, hfp, hsize⟩ := h
  simp [pointers, hsp, hfp, hsize]

theorem toNat_sp_of_pointers {core core' : Core} {n : Nat}
    (h : core'.pointers = (core.lowered n).pointers) (hroom : 2 * n ≤ (core.get .sp).toNat) :
    (core'.get .sp).toNat + 2 * n = (core.get .sp).toNat := by
  have hsp : core'.get .sp = (core.lowered n).get .sp := congrArg Prod.fst h
  rw [hsp, toNat_sp_lowered hroom]
  omega

end Core

namespace Machine

/-! ## Code that leaves the stack alone -/

/-- The next step neither uses the stack nor names one of its pointers as the register to write, and
    the words on the stack are the same after it. -/
structure QuietStep (machine : Machine Ram) : Prop where
  step : machine.step.1 = .ok false
  instruction : ∃ i, machine.instruction? = some i ∧ i.usesStack = false ∧ ¬i.NamesPointer
  words : machine.bus.AgreesFrom machine.step.2.bus ((machine.core.get .sp).toNat + 2)

/-- Any number of steps that leave the stack alone. -/
inductive QuietRun (machine : Machine Ram) : Machine Ram → Prop
  | refl : QuietRun machine machine
  | step {machine' : Machine Ram} (h : QuietRun machine machine') (hquiet : machine'.QuietStep) :
      QuietRun machine machine'.step.2

section

variable {entry machine machine' : Machine Ram}

theorem QuietStep.pointers (h : machine.QuietStep) :
    machine.step.2.core.pointers = machine.core.pointers := by
  obtain ⟨i, hi, huses, hn⟩ := h.instruction
  obtain ⟨hperform, -⟩ := performs_of_instruction? hi h.step
  have hwritten : ∀ r ∈ i.written, ∀ core word,
      Core.pointers (Core.set core r word) = Core.pointers core := by
    intro r hr core word
    obtain ⟨hsp, hfp⟩ := Instruction.ne_pointer_of_mem_written huses hn hr
    exact core.pointers_set hsp hfp word
  have hkeeps := Microcode.perform_keeps huses hwritten (machine.core.get .ip)
  exact (hkeeps.of_completes hperform).trans
    (machine.core.pointers_set (by decide) (by decide) _)

theorem QuietRun.unchanged (h : QuietRun machine machine') :
    machine'.core.pointers = machine.core.pointers ∧
      machine.bus.AgreesFrom machine'.bus ((machine.core.get .sp).toNat + 2) := by
  induction h with
  | refl => exact ⟨rfl, fun _ => rfl⟩
  | @step machine' h hquiet ih =>
    obtain ⟨hpointers, hagrees⟩ := ih
    have hsp : machine'.core.get .sp = machine.core.get .sp := congrArg Prod.fst hpointers
    have hwords := hquiet.words
    rw [hsp] at hwords
    exact ⟨hquiet.pointers.trans hpointers, hagrees.trans hwords⟩

/-! ## The pushes of a frame -/

/-- The states of a frame that has pushed the words of a list and popped none of them, the last word
    first. -/
inductive Pushing (entry : Machine Ram) : List Word → Machine Ram → Prop
  | entered : Pushing entry [] entry
  | quiet {machine : Machine Ram} {words : List Word} (h : Pushing entry words machine)
      (hquiet : machine.QuietStep) : Pushing entry words machine.step.2
  | push {machine : Machine Ram} {words : List Word} {operand : Operand}
      (h : Pushing entry words machine) (hi : machine.instruction? = some (.push operand))
      (hstep : machine.step.1 = .ok false) :
      Pushing entry ((machine.core.advanced (1 + operand.length)).valueOf operand :: words)
        machine.step.2

theorem step_of_push {operand : Operand} {b : Bool}
    (hi : machine.instruction? = some (.push operand)) (hstep : machine.step.1 = .ok b) :
    machine.bus.answer (machine.core.get .sp)
        (.writeWord ((machine.core.advanced (1 + operand.length)).valueOf operand)) =
          (.ok (), machine.step.2.bus) ∧
      machine.step.2.core = (machine.core.advanced (1 + operand.length)).pushed := by
  obtain ⟨hperform, -⟩ := performs_of_instruction? hi hstep
  rw [Microcode.perform, Microcode.completes_value_bind, Microcode.push_completes_iff,
    Core.get_advanced_of_ne _ _ (by decide)] at hperform
  exact hperform

/-- The words that a frame has pushed are on the stack, and what was on it before is unchanged. -/
theorem pushed_of_pushing {words : List Word} (h : Pushing entry words machine)
    (hroom : 2 * words.length ≤ (entry.core.get .sp).toNat) :
    machine.core.pointers = (entry.core.lowered words.length).pointers ∧
      machine.bus.Holds ((machine.core.get .sp).toNat + 2) words ∧
      entry.bus.AgreesFrom machine.bus ((entry.core.get .sp).toNat + 2) := by
  induction h with
  | entered =>
    rw [List.length_nil, Core.lowered_zero]
    exact ⟨rfl, trivial, fun _ => rfl⟩
  | @quiet machine words h hquiet ih =>
    obtain ⟨hpointers, hholds, hagrees⟩ := ih hroom
    have hsp := Core.toNat_sp_of_pointers hpointers hroom
    have hsame : machine.step.2.core.get .sp = machine.core.get .sp :=
      congrArg Prod.fst hquiet.pointers
    have habove := hquiet.words.above words.length
    rw [show (machine.core.get .sp).toNat + 2 + 2 * words.length =
      (entry.core.get .sp).toNat + 2 by omega] at habove
    rw [hsame]
    exact ⟨hquiet.pointers.trans hpointers, hquiet.words.holds hholds, hagrees.trans habove⟩
  | @push machine words operand h hi hstep ih =>
    rw [List.length_cons] at hroom ⊢
    obtain ⟨hpointers, hholds, hagrees⟩ := ih (by omega)
    have hsp := Core.toNat_sp_of_pointers hpointers (by omega)
    obtain ⟨hwrite, hcore⟩ := step_of_push hi hstep
    have hpointers' : machine.step.2.core.pointers =
        (entry.core.lowered (words.length + 1)).pointers := by
      rw [hcore, ← Core.lowered_pushed]
      refine Core.pointers_pushed (Eq.trans ?_ hpointers)
      exact machine.core.pointers_set (by decide) (by decide) _
    have hsp' := Core.toNat_sp_of_pointers hpointers' hroom
    -- the write is right below the words that were pushed before
    have habove : machine.bus.AgreesFrom machine.step.2.bus ((machine.core.get .sp).toNat + 2) :=
      fun i => Bus.word?_of_writeWord_of_ne hwrite (by omega)
    rw [show (machine.step.2.core.get .sp).toNat + 2 = (machine.core.get .sp).toNat by omega]
    refine ⟨hpointers', Bus.holds_of_writeWord hwrite hholds, hagrees.trans ?_⟩
    have hentry := habove.above words.length
    rwa [show (machine.core.get .sp).toNat + 2 + 2 * words.length =
      (entry.core.get .sp).toNat + 2 by omega] at hentry

end

/-! ## Chains of calls -/

/-- A frame that has made a call: the state in which it began, the state in which it made the call,
    and the words that it had pushed until then, the count of the arguments first. -/
structure Level where
  entry : Machine Ram
  caller : Machine Ram
  operand : Operand
  count : Word
  rest : List Word

/-- The frame that a machine is in after nested calls, with the frames that have made the calls, the
    innermost one first. Each of them has pushed its arguments and their count, and the stack has
    never run below the beginning of the address space. -/
inductive Descent (root : Machine Ram) : List Level → Machine Ram → Prop
  | root : Descent root [] root
  | call {levels : List Level} {entry caller : Machine Ram} {operand : Operand} {count : Word}
      {rest : List Word} (h : Descent root levels entry)
      (hpushing : Pushing entry (count :: rest) caller) (hcalls : caller.Calls operand)
      (hcount : count.toNat ≤ rest.length)
      (hroom : 2 * (rest.length + 1) + 20 ≤ (entry.core.get .sp).toNat) :
      Descent root (⟨entry, caller, operand, count, rest⟩ :: levels) caller.step.2

/-- The machine is back in a frame that has made a call, right after the call and with the arguments
    dropped. -/
structure Level.Restored (level : Level) (after : Machine Ram) : Prop where
  fp : after.core.get .fp = level.entry.core.get .fp
  general : ∀ r ∈ Register.general, after.core.get r = level.caller.core.get r
  ip : after.core.get .ip = level.caller.core.get .ip + (Instruction.call level.operand).length
  sp : (after.core.get .sp).toNat =
    (level.entry.core.get .fp).toNat - 2 * (level.rest.length + 1) + 2 + 2 * level.count.toNat

/-- As often as there are levels, a return that is reached by code that leaves the stack alone
    succeeds and is back in the next level. -/
def Unwinds : List Level → Machine Ram → Prop
  | [], _ => True
  | level :: outer, machine =>
    ∀ machine', QuietRun machine machine' → machine'.instruction? = some .ret →
      machine'.step.1 = .ok false ∧ level.Restored machine'.step.2 ∧ Unwinds outer machine'.step.2

/-- The chain of frames on the stack, from the frame pointer on: the words that the call has stored,
    then what the frame had pushed before it, and then the next frame. -/
def Stored (bus : Bus Ram) : List Level → (fp : Nat) → Prop
  | [], _ => True
  | level :: outer, fp =>
    bus.Holds (fp + 2) (level.caller.storedFrame level.operand) ∧
      bus.Holds (fp + 22) (level.count :: level.rest) ∧
      level.count.toNat ≤ level.rest.length ∧
      (level.caller.core.get .sp).toNat = fp + 20 ∧
      level.caller.core.get .sp + level.caller.core.frameSize = level.entry.core.get .fp ∧
      (level.entry.core.get .fp).toNat = fp + 20 + 2 * (level.rest.length + 1) ∧
      Stored bus outer (level.entry.core.get .fp).toNat

theorem Stored.congr {bus bus' : Bus Ram} {levels : List Level} {fp : Nat}
    (h : Stored bus levels fp) (hagrees : bus.AgreesFrom bus' (fp + 2)) :
    Stored bus' levels fp := by
  induction levels generalizing fp with
  | nil => trivial
  | cons level outer ih =>
    obtain ⟨hframe, hwords, hcount, hsp, hfp, hnext, houter⟩ := h
    have habove := hagrees.above (10 + (level.rest.length + 1))
    rw [show fp + 2 + 2 * (10 + (level.rest.length + 1)) =
      (level.entry.core.get .fp).toNat + 2 by omega] at habove
    exact ⟨hagrees.holds hframe, (hagrees.above 10).holds hwords, hcount, hsp, hfp, hnext,
      ih houter habove⟩

/-- Every call of a chain adds a frame to the stack, and the next frame begins without anything. -/
theorem stored_of_descent {root machine : Machine Ram} {levels : List Level}
    (hsp : root.core.get .sp = root.core.get .fp) (hsize : root.core.frameSize = 0)
    (h : Descent root levels machine) :
    machine.core.get .sp = machine.core.get .fp ∧ machine.core.frameSize = 0 ∧
      Stored machine.bus levels (machine.core.get .fp).toNat := by
  induction h with
  | root => exact ⟨hsp, hsize, trivial⟩
  | @call levels entry caller operand count rest h hpushing hcalls hcount hroom ih =>
    obtain ⟨hsp, hsize, hstored⟩ := ih
    obtain ⟨hsp', hfp', hsize'⟩ := hcalls.entry
    have hlength : 2 * (count :: rest).length ≤ (entry.core.get .sp).toNat := by
      rw [List.length_cons]
      omega
    obtain ⟨hpointers, hwords, hagrees⟩ := pushed_of_pushing hpushing hlength
    obtain ⟨hframe, hkeep⟩ := hcalls.holds
    have htop := hcalls.toNat_fp
    have hdepth := Core.toNat_sp_of_pointers hpointers hlength
    rw [List.length_cons] at hdepth
    rw [← hsp] at hstored
    have hsum : caller.core.get .sp + caller.core.frameSize = entry.core.get .fp := by
      simp only [Core.pointers, Prod.mk.injEq, Core.get_lowered, if_true, Core.frameSize_lowered,
        hsize] at hpointers
      rw [hpointers.1, hpointers.2.2, ← hsp]
      grind
    have hcall : caller.bus.AgreesFrom caller.step.2.bus ((entry.core.get .sp).toNat + 2) :=
      fun i => hkeep _ (by omega)
    refine ⟨hsp'.trans hfp'.symm, hsize', hframe, ?_, hcount, htop.symm, hsum, ?_, ?_⟩
    · rw [show (caller.step.2.core.get .fp).toNat + 22 = (caller.core.get .sp).toNat + 2 by omega]
      exact hwords.congr fun i _ => hkeep _ (by omega)
    · rw [← hsp]
      show (entry.core.get .sp).toNat =
        (caller.step.2.core.get .fp).toNat + 20 + 2 * (rest.length + 1)
      omega
    · rw [← hsp]
      exact hstored.congr (hagrees.trans hcall)

/-- A chain of frames unwinds from wherever the frame pointer is at its first frame. -/
theorem unwinds_of_stored {machine : Machine Ram} {levels : List Level} {pushed : Nat}
    (hfp : (machine.core.get .fp).toNat = (machine.core.get .sp).toNat + 2 * pushed)
    (h : Stored machine.bus levels (machine.core.get .fp).toNat) : Unwinds levels machine := by
  induction levels generalizing machine pushed with
  | nil => trivial
  | cons level outer ih =>
    intro machine' hquiet hret
    obtain ⟨hpointers, hagrees⟩ := hquiet.unchanged
    have hfp' : machine'.core.get .fp = machine.core.get .fp :=
      congrArg (fun p => p.2.1) hpointers
    have habove := hagrees.above pushed
    rw [show (machine.core.get .sp).toNat + 2 + 2 * pushed = (machine.core.get .fp).toNat + 2 by
      omega] at habove
    obtain ⟨hframe, hwords, hcount, hsp, hsum, hnext, houter⟩ := h.congr habove
    rw [← hfp'] at hframe hwords hsp hnext
    -- the arguments are the first of the words that the frame had pushed
    have hdropped : machine'.bus.Holds ((level.caller.core.get .sp).toNat + 2)
        (level.count :: level.rest.take level.count.toNat) := by
      have hsplit : level.count :: level.rest =
          (level.count :: level.rest.take level.count.toNat) ++
            level.rest.drop level.count.toNat := by
        rw [List.cons_append, List.take_append_drop]
      rw [hsplit] at hwords
      rw [show (level.caller.core.get .sp).toNat + 2 = (machine'.core.get .fp).toNat + 22 by omega]
      exact (Bus.holds_append.mp hwords).1
    obtain ⟨hok, hreturns⟩ := returnsTo_of_holds hret hsp.symm
      (List.length_take_of_le hcount) hframe hdropped
    have hfp'' : machine'.step.2.core.get .fp = level.entry.core.get .fp := hreturns.fp.trans hsum
    have hsp' := hreturns.sp
    refine ⟨hok, ⟨hfp'', hreturns.general, hreturns.ip, by omega⟩, ?_⟩
    refine @ih machine'.step.2 (level.rest.length - level.count.toNat) ?_ ?_
    · rw [hfp'']
      omega
    · rw [hfp'', hreturns.bus]
      exact houter

/-- Nested calls of any depth unwind: frame by frame the returns are back where the calls were
    made, whatever the sizes of the frames. -/
theorem unwinds_of_descent {root machine : Machine Ram} {levels : List Level}
    (hsp : root.core.get .sp = root.core.get .fp) (hsize : root.core.frameSize = 0)
    (h : Descent root levels machine) : Unwinds levels machine := by
  obtain ⟨hsp', -, hstored⟩ := stored_of_descent hsp hsize h
  have hfp : (machine.core.get .fp).toNat = (machine.core.get .sp).toNat + 2 * 0 := by
    rw [hsp', Nat.mul_zero, Nat.add_zero]
  exact unwinds_of_stored hfp hstored

/-- A program that pushes two words and calls a subroutine, which pushes one word and calls
    another. -/
def twoLevels : Machine Ram :=
  loaded #[0x17, 0, 7, 0x17, 0, 1, 0x5e, 0, 10, 0xff, 0x17, 0, 0, 0x5e, 0, 17, 0x60, 0x60]

/-- The frame of the reset. -/
def outerLevel : Level := ⟨twoLevels.after 0, twoLevels.after 2, .literal 10, 1, [7]⟩

/-- The frame of the first subroutine. -/
def innerLevel : Level := ⟨twoLevels.after 3, twoLevels.after 4, .literal 17, 0, []⟩

theorem unwinds_twoLevels :
    Descent (twoLevels.after 0) [innerLevel, outerLevel] (twoLevels.after 5) ∧
      innerLevel.Restored (twoLevels.after 6) ∧ outerLevel.Restored (twoLevels.after 7) := by
  have hrun : (twoLevels.after 0).instruction? = some (.push (.literal 7)) ∧
      (twoLevels.after 0).step.1 = .ok false ∧
      (twoLevels.after 1).instruction? = some (.push (.literal 1)) ∧ (twoLevels.after 1).step.1 = .ok false ∧
      (twoLevels.after 2).Calls (.literal 10) ∧ 24 ≤ ((twoLevels.after 0).core.get .sp).toNat ∧
      (twoLevels.after 3).instruction? = some (.push (.literal 0)) ∧ (twoLevels.after 3).step.1 = .ok false ∧
      (twoLevels.after 4).Calls (.literal 17) ∧ 22 ≤ ((twoLevels.after 3).core.get .sp).toNat ∧
      (twoLevels.after 5).instruction? = some .ret ∧ (twoLevels.after 6).instruction? = some .ret ∧
      (twoLevels.after 0).core.get .sp = (twoLevels.after 0).core.get .fp ∧
      (twoLevels.after 0).core.frameSize = 0 := by
    decide +kernel
  obtain ⟨hi₀, hs₀, hi₁, hs₁, hcall₂, hroom₀, hi₃, hs₃, hcall₄, hroom₃, hret₅, hret₆, hsp, hsize⟩ :=
    hrun
  have hfirst : Pushing (twoLevels.after 0) [7] (twoLevels.after 1) := by
    rw [after_succ _ 0]
    exact .push .entered hi₀ hs₀
  have houter : Pushing (twoLevels.after 0) [1, 7] (twoLevels.after 2) := by
    rw [after_succ _ 1]
    exact .push hfirst hi₁ hs₁
  have hdescent : Descent (twoLevels.after 0) [outerLevel] (twoLevels.after 3) := by
    rw [after_succ _ 2]
    exact .call .root houter hcall₂ (by decide) hroom₀
  have hinner : Pushing (twoLevels.after 3) [0] (twoLevels.after 4) := by
    rw [after_succ _ 3]
    exact .push .entered hi₃ hs₃
  have hdescent' : Descent (twoLevels.after 0) [innerLevel, outerLevel] (twoLevels.after 5) := by
    rw [after_succ _ 4]
    exact .call hdescent hinner hcall₄ (by decide) hroom₃
  obtain ⟨-, hrestored, hunwinds⟩ :=
    unwinds_of_descent hsp hsize hdescent' (twoLevels.after 5) .refl hret₅
  rw [← after_succ _ 5] at hrestored hunwinds
  obtain ⟨-, hrestored', -⟩ := hunwinds (twoLevels.after 6) .refl hret₆
  rw [← after_succ _ 6] at hrestored'
  exact ⟨hdescent', hrestored, hrestored'⟩

end Machine

end WordMachine
