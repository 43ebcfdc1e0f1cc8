import WordMachine.Proofs.FrameCounter
import WordMachine.Proofs.Subroutine

/-!
# Several calls from one frame

After a return the counter is two bytes ahead of the stack. The next call from the same frame stores
a size that is two bytes too large, and its return puts the frame pointer two bytes too high. Only
the first return to a frame finds the frame pointer where it was when the frame began; later ones do
not until it has gone once around the address space.

* `span_of_frameRun`: the counter and the frame pointer after a number of calls.
* `fp_of_frameRun`: where the frame pointer is, and where a return of the frame itself goes.
-/

namespace WordMachine

namespace Machine

/-! ## Frames -/

/-- The states in which a frame begins: after a reset and after a call. -/
inductive Entered : Machine Ram → Prop
  | reset (bus : Bus Ram) (log : Array LogEntry) : Entered ⟨.initial, bus, false, log⟩
  | called {caller : Machine Ram} {operand : Operand} (h : caller.Calls operand) :
      Entered caller.step.2

/-- The states of a frame that has made a number of calls one after the other, all of which have
    returned. In between the frame moves its stack pointer by pushes and pops only, its own or from
    outside, and a subroutine may do anything that leaves its frame as it was. -/
inductive FrameRun (entry : Machine Ram) : Nat → Machine Ram → Prop
  | entered : FrameRun entry 0 entry
  | own {machine : Machine Ram} {calls : Nat} {i : Instruction} {b : Bool}
      (h : FrameRun entry calls machine) (hi : machine.instruction? = some i)
      (ht : i.transfer? = none) (hn : ¬i.NamesPointer) (hstep : machine.step.1 = .ok b) :
      FrameRun entry calls machine.step.2
  | push {machine : Machine Ram} {calls : Nat} (h : FrameRun entry calls machine) (word : Word) :
      FrameRun entry calls (machine.push word).2
  | pop {machine : Machine Ram} {calls : Nat} (h : FrameRun entry calls machine) :
      FrameRun entry calls machine.pop.2
  | call {caller callee : Machine Ram} {calls : Nat} {operand : Operand} {b : Bool}
      (h : FrameRun entry calls caller) (hcalls : caller.Calls operand)
      (hret : callee.instruction? = some .ret)
      (hfp : callee.core.get .fp = caller.step.2.core.get .fp)
      (hframe : KeepsFrame caller.step.2 callee) (hstep : callee.step.1 = .ok b) :
      FrameRun entry (calls + 1) callee.step.2

section

variable {entry machine caller : Machine Ram} {operand : Operand} {calls : Nat}

theorem Entered.excess (h : Entered entry) : entry.core.excess = 0 := by
  cases h with
  | reset bus log => exact Core.excess_initial
  | called h =>
    refine excess_of_step h.instruction ?_ h.step
    simp [Instruction.NamesPointer, Instruction.destination?]

/-- A return moves the frame pointer to where the counter says that the stack was. -/
theorem ReturnsTo.span {call : Instruction} {count : Word} {callee after : Machine Ram}
    (h : ReturnsTo caller call count callee after) :
    after.core.span = (caller.core.span.1 + 2, caller.core.span.1) := by
  have hsp : after.core.get .sp = caller.core.get .sp + 2 + 2 * count := by
    have hlt := (after.core.get .sp).toNat_lt
    rw [h.sp] at hlt
    rw [← UInt16.toNat_inj, h.sp, UInt16.toNat_add, UInt16.toNat_add, UInt16.toNat_mul,
      show (2 : Word).toNat = 2 from rfl]
    omega
  have hsum : after.core.get .sp + after.core.frameSize = caller.core.span.1 + 2 := by
    rw [hsp, h.frameSize, Core.span]
    grind
  exact Prod.ext hsum h.fp

/-- Every return moves the frame pointer and the counter up by two bytes, but the first one moves
    the counter only. -/
theorem span_of_frameRun (he : entry.core.excess = 0) (h : FrameRun entry calls machine) :
    machine.core.span = (entry.core.get .fp + 2 * .ofNat calls,
      entry.core.get .fp + 2 * .ofNat (calls - 1)) := by
  induction h with
  | entered =>
    have hsum : entry.core.get .sp + entry.core.frameSize = entry.core.get .fp := by
      rw [Core.excess] at he
      grind
    rw [Core.span, hsum]
    simp
  | own h hi ht hn hstep ih => rw [span_of_step hi ht hn hstep, ih]
  | push h word ih => rw [span_of_push, ih]
  | pop h ih => rw [span_of_pop, ih]
  | @call caller callee calls operand b h hcalls hret hfp hframe hstep ih =>
    obtain ⟨count, hreturns⟩ := returnsTo_of_step hcalls hret hfp hframe hstep
    rw [hreturns.span, ih, Nat.add_sub_cancel, UInt16.ofNat_add, UInt16.mul_add,
      UInt16.add_assoc]
    rfl

/-- The frame pointer is back where the frame began when as many bytes were added as there are in
    the address space. -/
theorem add_two_mul_eq_self_iff {word : Word} {n : Nat} :
    word + 2 * .ofNat n = word ↔ 32768 ∣ n := by
  rw [← UInt16.toNat_inj, UInt16.toNat_add, UInt16.toNat_mul, UInt16.toNat_ofNat',
    show (2 : Word).toNat = 2 from rfl]
  have hlt := word.toNat_lt
  omega

/-- A return of a frame that has called others more than once takes a register that the call has
    saved for its return address. -/
theorem ip_of_frameRun (hcalls : caller.Calls operand)
    (h : FrameRun caller.step.2 calls machine) (hframe : KeepsFrame caller.step.2 machine)
    (hret : machine.instruction? = some .ret) {b : Bool} (hstep : machine.step.1 = .ok b) {k : Nat}
    {r : Register} (hk : calls = k + 2) (hr : Register.general.reverse[k]? = some r) :
    machine.step.2.core.get .ip = caller.core.get r := by
  have hlt : k < 8 := (List.getElem?_eq_some_iff.mp hr).1
  have hne : r ≠ .ip := ne_of_mem_of_not_mem (List.mem_of_getElem? hr) (by decide)
  have hfp : machine.core.get .fp = caller.step.2.core.get .fp + 2 * .ofNat (calls - 1) :=
    congrArg Prod.snd (span_of_frameRun (Entered.called hcalls).excess h)
  have htop := hcalls.toNat_fp
  have hsp := (caller.core.get .sp).toNat_lt
  have haddress : (machine.core.get .fp).toNat + 4 =
      (caller.step.2.core.get .fp).toNat + 2 + 2 * (k + 2) := by
    rw [hfp, UInt16.toNat_add, UInt16.toNat_mul, UInt16.toNat_ofNat',
      show (2 : Word).toNat = 2 from rfl]
    omega
  obtain ⟨size, saved, _, _, -, -, hwords, -⟩ := holds_of_step_ret hret hstep
  have hloaded : machine.bus.word? ((machine.core.get .fp).toNat + 4) =
      some (machine.step.2.core.get .ip) := hwords.2.1
  have hstored : (caller.storedFrame operand)[k + 2]? = some (caller.core.get r) := by
    rw [storedFrame, Core.frame_reverse, List.getElem?_cons_succ, List.getElem?_cons_succ,
      List.getElem?_map, hr, Option.map_some, Core.get_advanced_of_ne _ _ (Ne.symm hne)]
  rw [haddress, (hframe.holds hcalls).getElem? hstored] at hloaded
  exact (Option.some.inj hloaded).symm

/-- The frame pointer after a number of calls from one frame is two bytes further up for every call
    but the first. Where that is back at the frame, a return of the frame itself is back in its
    caller; where it is not, it takes the return address from a register that the caller has
    saved. -/
theorem fp_of_frameRun (he : Entered entry) (h : FrameRun entry calls machine) :
    machine.core.get .fp = entry.core.get .fp + 2 * .ofNat (calls - 1) ∧
      (machine.core.get .fp = entry.core.get .fp ↔ 32768 ∣ calls - 1) ∧
      ∀ (caller : Machine Ram) (operand : Operand), caller.Calls operand → caller.step.2 = entry →
        KeepsFrame entry machine → machine.instruction? = some .ret →
        (32768 ∣ calls - 1 →
          ∀ count, machine.bus.HoldsArguments ((caller.core.get .sp).toNat + 2) count →
            machine.step.1 = .ok false ∧
              ReturnsTo caller (.call operand) count machine machine.step.2) ∧
        (∀ (k : Nat) (r : Register) (b : Bool), calls = k + 2 →
          Register.general.reverse[k]? = some r → machine.step.1 = .ok b →
            machine.step.2.core.get .ip = caller.core.get r) := by
  have hfp : machine.core.get .fp = entry.core.get .fp + 2 * .ofNat (calls - 1) :=
    congrArg Prod.snd (span_of_frameRun he.excess h)
  have hiff : machine.core.get .fp = entry.core.get .fp ↔ 32768 ∣ calls - 1 := by
    rw [hfp]
    exact add_two_mul_eq_self_iff
  refine ⟨hfp, hiff, fun caller operand hcalls hentry hframe hret => ⟨?_, ?_⟩⟩
  · intro hdvd count hcount
    subst hentry
    obtain ⟨dropped, hlen, hdropped⟩ := Bus.holdsArguments_iff.mp hcount
    have hholds := hframe.holds hcalls
    have htop := hcalls.toNat_fp
    rw [← hiff.mpr hdvd] at hholds htop
    exact returnsTo_of_holds hret htop hlen hholds hdropped
  · intro k r b hk hr hstep
    subst hentry
    exact ip_of_frameRun hcalls h hframe hret hstep hk hr

end

/-- A subroutine at address 10 that calls a return at address 23 twice and then returns. -/
def twoCalls : Machine Ram :=
  loaded #[0x17, 0, 0, 0x17, 0, 0, 0x5e, 0, 10, 0xff, 0x17, 0, 0, 0x5e, 0, 23, 0x17, 0, 0, 0x5e, 0,
    23, 0x60, 0x60]

theorem fp_twoCalls :
    FrameRun (twoCalls.after 3) 2 (twoCalls.after 9) ∧
      (twoCalls.after 9).core.get .fp = (twoCalls.after 3).core.get .fp + 2 ∧
      (twoCalls.after 10).core.get .ip = (twoCalls.after 2).core.get .r8 := by
  have hrun : (twoCalls.after 2).Calls (.literal 10) ∧
      (twoCalls.after 3).instruction? = some (.push (.literal 0)) ∧ (twoCalls.after 3).step.1 = .ok false ∧
      (twoCalls.after 4).Calls (.literal 23) ∧ (twoCalls.after 5).instruction? = some .ret ∧
      (twoCalls.after 5).core.get .fp = (twoCalls.after 4).step.2.core.get .fp ∧
      KeepsFrame (twoCalls.after 4).step.2 (twoCalls.after 5) ∧ (twoCalls.after 5).step.1 = .ok false ∧
      (twoCalls.after 6).instruction? = some (.push (.literal 0)) ∧ (twoCalls.after 6).step.1 = .ok false ∧
      (twoCalls.after 7).Calls (.literal 23) ∧ (twoCalls.after 8).instruction? = some .ret ∧
      (twoCalls.after 8).core.get .fp = (twoCalls.after 7).step.2.core.get .fp ∧
      KeepsFrame (twoCalls.after 7).step.2 (twoCalls.after 8) ∧ (twoCalls.after 8).step.1 = .ok false ∧
      KeepsFrame (twoCalls.after 3) (twoCalls.after 9) ∧ (twoCalls.after 9).instruction? = some .ret ∧
      (twoCalls.after 9).step.1 = .ok false := by
    decide +kernel
  obtain ⟨houter, hi₃, hs₃, hcall₄, hret₅, hfp₅, hframe₅, hs₅, hi₆, hs₆, hcall₇, hret₈, hfp₈,
    hframe₈, hs₈, hframe₉, hret₉, hs₉⟩ := hrun
  have hentered : Entered (twoCalls.after 3) := by
    rw [after_succ _ 2]
    exact .called houter
  have hnone : FrameRun (twoCalls.after 3) 0 (twoCalls.after 4) := by
    rw [after_succ _ 3]
    exact .own .entered hi₃ rfl (by decide) hs₃
  have hone : FrameRun (twoCalls.after 3) 1 (twoCalls.after 6) := by
    rw [after_succ _ 5]
    exact .call hnone hcall₄ hret₅ hfp₅ hframe₅ hs₅
  have hpushed : FrameRun (twoCalls.after 3) 1 (twoCalls.after 7) := by
    rw [after_succ _ 6]
    exact .own hone hi₆ rfl (by decide) hs₆
  have htwo : FrameRun (twoCalls.after 3) 2 (twoCalls.after 9) := by
    rw [after_succ _ 8]
    exact .call hpushed hcall₇ hret₈ hfp₈ hframe₈ hs₈
  obtain ⟨hfp, -, hret⟩ := fp_of_frameRun hentered htwo
  obtain ⟨-, hip⟩ := hret _ _ houter (after_succ _ 2).symm hframe₉ hret₉
  refine ⟨htwo, hfp, ?_⟩
  rw [after_succ _ 9]
  exact hip 0 .r8 false rfl rfl hs₉

end Machine

end WordMachine
