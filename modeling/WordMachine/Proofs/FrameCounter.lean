import WordMachine.Proofs.Stack

/-!
# The size of the frame

The machine counts the bytes that the current frame has on the stack. Pushes and pops keep the sum
of the stack pointer and the counter, so that their distance to the frame pointer, `Core.excess`,
depends on calls and returns only. A call sets it to zero. A return sets it to two: the size that the
call has stored counts the word that it stands in, and the counter is set to it when that word has
been loaded already. Nothing here depends on the devices.

* `perform_ensures_excess`: what each instruction does to the excess.
* `excess_of_reached`: the excess in every state that can be reached.
-/

namespace WordMachine

variable {γ δ : Type}

namespace Core

/-- Where the stack pointer was when the frame began, and where the frame pointer is. -/
def span (core : Core) : Word × Word := (core.get .sp + core.frameSize, core.get .fp)

/-- How far the counter is ahead of the stack. -/
def excess (core : Core) : Word := core.get .sp + core.frameSize - core.get .fp

theorem excess_initial : initial.excess = 0 := by decide +kernel

theorem excess_of_span {core core' : Core} (h : core'.span = core.span) :
    core'.excess = core.excess := by
  obtain ⟨hsp, hfp⟩ := Prod.mk.inj h
  rw [excess, excess, hsp, hfp]

theorem span_set (core : Core) {r : Register} (hsp : r ≠ .sp) (hfp : r ≠ .fp) (word : Word) :
    (core.set r word).span = core.span := by
  rw [span, span, get_set, get_set, if_neg hsp, if_neg hfp, frameSize_set]

theorem span_advanced (core : Core) (n : Word) : (core.advanced n).span = core.span :=
  core.span_set (by decide) (by decide) _

theorem span_moved (core : Core) (distance : Word) : (core.moved distance).span = core.span := by
  rw [span, span, get_moved, if_pos rfl, get_moved, if_neg (by decide), frameSize_moved]
  exact Prod.ext (by grind) rfl

theorem span_pushed (core : Core) : core.pushed.span = core.span := by
  rw [pushed_eq_lowered]
  exact core.span_moved _

end Core

namespace Microcode

/-! ## Instructions that leave the frame alone -/

theorem Keeps.set {f : Core → γ} {code : Microcode Word} {r : Register} (hc : code.Keeps f)
    (hr : ∀ core word, f (Core.set core r word) = f core) :
    (do set r (← code) : Microcode Unit).Keeps f :=
  hc.bind fun word => keeps_set fun core => hr core word

theorem value_keeps {f : Core → γ} (operand : Operand) : (value operand).Keeps f := by
  cases operand with
  | literal word => exact keeps_pure word
  | register r => exact keeps_get r

theorem comparand_keeps {f : Core → γ} (address : Word) (operand : Operand) :
    (comparand address operand).Keeps f := by
  unfold comparand
  split
  · exact keeps_pure _
  · exact value_keeps operand

/-- An instruction that does not use the stack keeps what does not depend on the registers that it
    writes. -/
theorem perform_keeps {f : Core → γ} {i : Instruction} (hi : i.usesStack = false)
    (hf : ∀ r ∈ i.written, ∀ core word, f (Core.set core r word) = f core) (address : Word) :
    (perform address i).Keeps f := by
  have hset : ∀ {r}, r ∈ i.written → ∀ word, (set r word).Keeps f :=
    fun hr word => keeps_set fun core => hf _ hr core word
  cases i with
  | move source target => exact (value_keeps source).bind (hset List.mem_cons_self)
  | store source target =>
    exact (value_keeps source).bind fun word => keeps_access target (.writeWord word)
  | load source target => exact (keeps_access source .readWord).bind (hset List.mem_cons_self)
  | loadIndirect pointer target =>
    exact (keeps_get pointer).bind fun source =>
      (keeps_access source .readWord).bind (hset List.mem_cons_self)
  | loadIndexed base offset target =>
    exact (keeps_get offset).bind fun distance => (keeps_check _).bind fun source =>
      (keeps_access source .readWord).bind (hset List.mem_cons_self)
  | arithmetic operation first second =>
    exact (value_keeps first).bind fun _ => (keeps_get second).bind fun _ =>
      hset List.mem_cons_self _
  | literalMinus subtrahend minuend =>
    exact (keeps_get subtrahend).bind fun _ => hset List.mem_cons_self _
  | unary operation target => exact (keeps_get target).bind fun _ => hset List.mem_cons_self _
  | shift direction target amount =>
    exact (keeps_get target).bind fun _ => (value_keeps amount).bind fun _ =>
      hset List.mem_cons_self _
  | bitwise operation target second =>
    exact (keeps_get target).bind fun _ => (value_keeps second).bind fun _ =>
      hset List.mem_cons_self _
  | jump condition compared target =>
    refine (comparand_keeps address compared).bind fun left => (keeps_get .acc).bind fun right => ?_
    split
    · exact hset List.mem_cons_self target
    · exact keeps_pure ()
  | push source => cases hi
  | pop target => cases hi
  | call target => cases hi
  | ret => cases hi
  | halt => exact keeps_pure ()
  | unknown byte => exact keeps_log _

/-! ## Pushes and pops -/

theorem keeps_span_set {r : Register} (hsp : r ≠ .sp) (hfp : r ≠ .fp) (word : Word) :
    (set r word).Keeps Core.span :=
  keeps_set fun core => core.span_set hsp hfp word

theorem push_keeps_span (word : Word) : (push word).Keeps Core.span := by
  intro core reply
  exact core.span_pushed

theorem pop_ensures (core : Core) : pop.Ensures core fun _ core' => core' = core.raised 1 := by
  refine ensures_bind.mpr (ensures_core.mpr (ensures_bind.mpr ?_))
  rw [ensures_check]
  intro core' h reply
  exact (Core.popped_eq_ok_iff.mp h).2

theorem pop_keeps_span : pop.Keeps Core.span := by
  intro core
  refine (pop_ensures core).mono fun _ core' h => ?_
  rw [h]
  exact core.span_moved _

theorem drop_keeps {f : Core → γ} (h : pop.Keeps f) (n : Nat) : (drop n).Keeps f := by
  induction n with
  | zero => exact keeps_pure ()
  | succ n ih => exact h.bind fun _ => ih

/-- An instruction other than a call or a return keeps the span. -/
theorem perform_keeps_span {i : Instruction} (hi : i.transfer? = none) (hn : ¬i.NamesPointer)
    (address : Word) : (perform address i).Keeps Core.span := by
  cases hs : i.usesStack with
  | false =>
    refine perform_keeps hs (fun r hr core word => ?_) address
    obtain ⟨hsp, hfp⟩ := Instruction.ne_pointer_of_mem_written hs hn hr
    exact core.span_set hsp hfp word
  | true =>
    cases i with
    | push source => exact (value_keeps source).bind push_keeps_span
    | pop target =>
      refine pop_keeps_span.set fun core word => core.span_set ?_ ?_ word
      · intro h
        exact hn (Or.inl (congrArg some h))
      · intro h
        exact hn (Or.inr (congrArg some h))
    | call target => cases hi
    | ret => cases hi
    | _ => cases hs

/-! ## Calls and returns -/

/-- A frame begins without excess, wherever the pushes have moved the stack pointer. -/
theorem enter_ensures_excess (core : Core) :
    enter.Ensures core fun _ core' => core'.excess = 0 := by
  refine (enter_ensures core).mono fun _ core' h => ?_
  rw [h, Core.excess, Core.get_entered, Core.get_entered, if_pos (Or.inl rfl), if_pos (Or.inr rfl),
    Core.frameSize_entered]
  grind

/-- Whatever a return loads does not matter to the excess: the size that moves the frame pointer is
    the new value of the counter as well. -/
theorem leave_ensures_excess (core : Core) :
    leave.Ensures core fun _ core' => core'.excess = 2 := by
  have hregisters : (Register.general.reverse.forM fun r => do set r (← pop)).Keeps Core.span := by
    refine keeps_forM fun r hr => pop_keeps_span.set fun core word => core.span_set ?_ ?_ word
    · exact ne_of_mem_of_not_mem hr (by decide)
    · exact ne_of_mem_of_not_mem hr (by decide)
  refine ensures_bind.mpr (ensures_get.mpr (ensures_bind.mpr (ensures_set.mpr ?_)))
  refine (pop_ensures _).bind fun size core₁ h₁ => ensures_bind.mpr (ensures_setFrameSize.mpr ?_)
  have hspan : (⟨core₁.registers, size⟩ : Core).span = (core.get .fp + 2 + size, core.get .fp) := by
    change (core₁.get .sp + size, core₁.get .fp) = _
    rw [h₁, Core.get_raised, if_pos rfl, Core.get_raised, if_neg (by decide), Core.get_set,
      if_pos rfl, Core.get_set, if_neg (by decide)]
    rfl
  refine (pop_keeps_span _).bind fun ip core₂ h₂ => ?_
  refine ((keeps_span_set (by decide) (by decide) ip) _).bind fun _ core₃ h₃ => ?_
  refine (hregisters _).bind fun _ core₄ h₄ => (pop_keeps_span _).bind fun count core₅ h₅ => ?_
  refine (drop_keeps pop_keeps_span count.toNat _).bind fun _ core₆ h₆ => ensures_set.mpr ?_
  have hspan' : core₆.span = (core.get .fp + 2 + size, core.get .fp) := by
    rw [h₆, h₅, h₄, h₃, h₂, hspan]
  have hsum : core₆.get .sp + core₆.frameSize = core.get .fp + 2 + size := (Prod.mk.inj hspan').1
  rw [Core.excess, Core.get_set, if_neg (by decide), Core.frameSize_set, hsum, Core.get_set,
    if_pos rfl]
  grind

/-- The excess after an instruction is known from what kind of instruction it is. -/
theorem perform_ensures_excess {i : Instruction} (hn : ¬i.NamesPointer) (address : Word)
    (core : Core) :
    (perform address i).Ensures core fun _ core' =>
      core'.excess = match i.transfer? with
        | some .call => 0
        | some .ret => 2
        | none => core.excess := by
  cases hi : i.transfer? with
  | none =>
    refine (perform_keeps_span hi hn address core).mono fun _ core' h => ?_
    exact Core.excess_of_span h
  | some transfer =>
    cases i with
    | call target =>
      cases hi
      refine (value_keeps (f := id) target core).bind fun word core₁ _ => ?_
      refine ensures_bind.mpr (ensures_log.mpr ?_)
      refine (enter_ensures_excess core₁).bind fun _ core₂ h => ensures_set.mpr ?_
      exact (Core.excess_of_span (core₂.span_set (by decide) (by decide) word)).trans h
    | ret =>
      cases hi
      exact (leave_ensures_excess core).bind fun _ core₁ h => h
    | _ => cases hi

end Microcode

namespace Machine

/-! ## States that can be reached -/

variable [Device δ]

/-- The states that a machine can reach from a reset, with the last call or return. Its devices may
    do what they like, but neither its program nor anybody outside writes to the stack pointer or
    the frame pointer by name. -/
inductive Reached : Machine δ → Option Transfer → Prop
  /-- a reset, with any devices on the bus -/
  | reset (bus : Bus δ) (log : Array LogEntry) : Reached ⟨.initial, bus, false, log⟩ none
  /-- a step that succeeds -/
  | step {machine : Machine δ} {last : Option Transfer} {i : Instruction} {b : Bool}
      (h : Reached machine last) (hi : machine.instruction? = some i) (hn : ¬i.NamesPointer)
      (hstep : machine.step.1 = .ok b) : Reached machine.step.2 (i.transfer?.or last)
  /-- a step that fails -/
  | failed {machine : Machine δ} {last : Option Transfer} {fault : Fault}
      (h : Reached machine last) (hstep : machine.step.1 = .error fault) :
      Reached machine.step.2 last
  /-- a push from outside, whether it fails or not -/
  | push {machine : Machine δ} {last : Option Transfer} (h : Reached machine last) (word : Word) :
      Reached (machine.push word).2 last
  /-- a pop from outside, whether it fails or not -/
  | pop {machine : Machine δ} {last : Option Transfer} (h : Reached machine last) :
      Reached machine.pop.2 last
  /-- a write to a register by name -/
  | setRegister {machine machine' : Machine δ} {last : Option Transfer} {name : String}
      {word : Word} (h : Reached machine last) (hsp : name ≠ "sp") (hfp : name ≠ "fp")
      (hset : machine.setRegister name word = .ok machine') : Reached machine' last
  /-- anything that is done to the bus from outside -/
  | bus {machine : Machine δ} {last : Option Transfer} (h : Reached machine last) (bus : Bus δ)
      (log : Array LogEntry) : Reached ⟨machine.core, bus, machine.halted, log⟩ last

section

variable {machine : Machine δ}

/-- A step that is neither a call nor a return keeps the span. -/
theorem span_of_step {i : Instruction} {b : Bool} (hi : machine.instruction? = some i)
    (ht : i.transfer? = none) (hn : ¬i.NamesPointer) (hstep : machine.step.1 = .ok b) :
    machine.step.2.core.span = machine.core.span := by
  obtain ⟨j, bus, hj, -, hperform, -⟩ := performs_of_step (instruction?_eq_some_iff.mp hi).1 hstep
  obtain rfl : i = j := Option.some.inj (hi.symm.trans hj)
  exact ((Microcode.perform_keeps_span ht hn _).of_completes hperform).trans
    (machine.core.span_advanced i.length)

/-- What one step does to the excess. -/
theorem excess_of_step {i : Instruction} {b : Bool} (hi : machine.instruction? = some i)
    (hn : ¬i.NamesPointer) (hstep : machine.step.1 = .ok b) :
    machine.step.2.core.excess = match i.transfer? with
      | some .call => 0
      | some .ret => 2
      | none => machine.core.excess := by
  obtain ⟨j, bus, hj, -, hperform, -⟩ := performs_of_step (instruction?_eq_some_iff.mp hi).1 hstep
  obtain rfl : i = j := Option.some.inj (hi.symm.trans hj)
  rw [← Core.excess_of_span (machine.core.span_advanced i.length)]
  exact (Microcode.perform_ensures_excess hn _ _).of_completes hperform

theorem span_of_push (word : Word) : (machine.push word).2.core.span = machine.core.span := by
  obtain ⟨core, bus, halted, log⟩ := machine
  rw [push]
  split
  · exact core.span_pushed
  · rfl

/-- A pop that fails half-way has moved the stack pointer and the counter together. -/
theorem span_of_pop : machine.pop.2.core.span = machine.core.span := by
  obtain ⟨core, bus, halted, log⟩ := machine
  rw [pop]
  split
  next core' h =>
    obtain rfl := (Core.popped_eq_ok_iff.mp h).2
    exact core.span_moved _
  next => rfl

omit [Device δ] in
theorem span_of_setRegister {machine' : Machine δ} {name : String} {word : Word}
    (hsp : name ≠ "sp") (hfp : name ≠ "fp") (hset : machine.setRegister name word = .ok machine') :
    machine'.core.span = machine.core.span := by
  unfold setRegister at hset
  cases hr : Register.ofName name with
  | error fault =>
    rw [hr] at hset
    cases hset
  | ok r =>
    rw [hr] at hset
    cases hset
    have hname := Register.ofName_eq_ok_iff.mp hr
    refine machine.core.span_set ?_ ?_ word
    · intro h
      subst h
      exact hsp hname.symm
    · intro h
      subst h
      exact hfp hname.symm

end

/-- The stack pointer and the counter are together where the frame pointer is, or two bytes above it
    if a subroutine has returned since the last call. -/
theorem excess_of_reached {machine : Machine δ} {last : Option Transfer}
    (h : Reached machine last) :
    machine.core.excess = if last = some .ret then 2 else 0 := by
  induction h with
  | reset bus log => exact Core.excess_initial
  | @step machine last i b h hi hn hstep ih =>
    rw [excess_of_step hi hn hstep]
    cases i.transfer? with
    | none => exact ih
    | some transfer => cases transfer <;> rfl
  | failed h hstep ih =>
    rw [(core_of_step_eq_error hstep).1]
    exact ih
  | push h word ih => exact (Core.excess_of_span (span_of_push word)).trans ih
  | pop h ih => exact (Core.excess_of_span span_of_pop).trans ih
  | setRegister h hsp hfp hset ih =>
    exact (Core.excess_of_span (span_of_setRegister hsp hfp hset)).trans ih
  | bus h bus log ih => exact ih

/-- A program that calls a subroutine, which returns at once. -/
def callAndReturn : Machine Ram := loaded #[0x17, 0, 0, 0x5e, 0, 7, 0xff, 0x60]

theorem excess_callAndReturn :
    Reached (callAndReturn.after 3) (some .ret) ∧ (callAndReturn.after 3).core.excess = 2 := by
  have hrun : (callAndReturn.after 0).instruction? = some (.push (.literal 0)) ∧
      (callAndReturn.after 0).step.1 = .ok false ∧
      (callAndReturn.after 1).instruction? = some (.call (.literal 7)) ∧
      (callAndReturn.after 1).step.1 = .ok false ∧
      (callAndReturn.after 2).instruction? = some .ret ∧ (callAndReturn.after 2).step.1 = .ok false := by
    decide +kernel
  obtain ⟨hi₀, hs₀, hi₁, hs₁, hi₂, hs₂⟩ := hrun
  have hstart : Reached (callAndReturn.after 0) none := .reset _ _
  have hpush : Reached (callAndReturn.after 1) none := by
    rw [after_succ _ 0]
    exact .step hstart hi₀ (by decide) hs₀
  have hcall : Reached (callAndReturn.after 2) (some .call) := by
    rw [after_succ _ 1]
    exact .step hpush hi₁ (by decide) hs₁
  have hret : Reached (callAndReturn.after 3) (some .ret) := by
    rw [after_succ _ 2]
    exact .step hcall hi₂ (by decide) hs₂
  exact ⟨hret, excess_of_reached hret⟩

end Machine

end WordMachine
