import WordMachine.Proofs.Rollback
import WordMachine.Proofs.Subroutine

/-!
# Returns

What a return does when there is memory at all addresses, whatever the memory holds. The words that a
return loads stand one above the other from the frame pointer on, so it succeeds exactly if the last of
them is inside the address space. Otherwise the pops go on to the end of the address space, where the
fault of the last one is known from the frame pointer alone.

* `pop_endsAt`, `restore_endsAt`: the fault of a pop is known from where the pops have begun.
* `step_ret_ok_iff`: when a return succeeds.
* `loadsFrame_of_step`: what a return that succeeds loads.
* `step_ret`: all returns.
-/

namespace WordMachine

namespace Ram

/-- The word at an address of a memory. Behind the end of the memory there are zeros. -/
def word (ram : Ram) (address : Nat) : Word :=
  Word.ofBytes (ram.bytes.getD address 0) (ram.bytes.getD (address + 1) 0)

/-- Words of a memory one after the other. -/
def words (ram : Ram) (address : Nat) : Nat → List Word
  | 0 => []
  | n + 1 => ram.word address :: ram.words (address + 2) n

@[simp] theorem length_words (ram : Ram) (address n : Nat) : (ram.words address n).length = n := by
  induction n generalizing address with
  | zero => rfl
  | succ n ih => rw [words, List.length_cons, ih]

theorem words_add (ram : Ram) (address m n : Nat) :
    ram.words address (m + n) = ram.words address m ++ ram.words (address + 2 * m) n := by
  induction m generalizing address with
  | zero => simp [words]
  | succ m ih =>
    rw [Nat.succ_add, words, words, ih, List.cons_append,
      show address + 2 + 2 * m = address + 2 * (m + 1) by omega]

theorem readWord_eq_word {ram : Ram} {a : Word} (h : a.toNat + 1 < ram.size) :
    ram.readWord a = .ok (ram.word a.toNat) := by
  have hlow : a.toNat + 1 < ram.bytes.size := h
  have hhigh : a.toNat < ram.bytes.size := by omega
  rw [readWord, dif_pos hlow, word, Array.getD_eq_getD_getElem?, Array.getD_eq_getD_getElem?,
    Array.getElem?_eq_getElem hhigh, Array.getElem?_eq_getElem hlow]
  rfl

end Ram

namespace Bus

/-- What is read from a bus is read from a memory of the size of the address space. -/
structure Spans (bus : Bus Ram) (ram : Ram) : Prop where
  size : ram.size = addressSpace
  answer : ∀ a request, (bus.answer a request).1 = (Device.answer ram a request).1

section

variable {bus : Bus Ram} {ram : Ram}

/-- A memory over all addresses hides whatever is under it. -/
theorem spans_map (older : Bus Ram) (hsize : ram.size = addressSpace) (remap : Bool) :
    (older.map ram 0x0000 0xffff remap).Spans ram where
  size := hsize
  answer a request := by
    have hlt := a.toNat_lt
    have howner : (older.map ram 0x0000 0xffff remap).owner a =
        some ⟨older.nextId, 0x0000, 0xffff, remap, ram⟩ := by
      rw [owner_map, if_pos]
      rw [UInt16.le_iff_toNat_le, UInt16.le_iff_toNat_le]
      exact ⟨Nat.zero_le _, Nat.le_of_lt_succ hlt⟩
    rw [answer_of_owner_eq_some howner]
    cases remap with
    | false => rfl
    | true =>
      change (Device.answer ram (a - 0) request).1 = _
      rw [UInt16.sub_zero]

theorem Spans.answer_readWord (h : bus.Spans ram) {a : Word} (ha : a.toNat ≤ 0xfffe) :
    (bus.answer a .readWord).1 = .ok (ram.word a.toNat) := by
  have hsize := h.size
  rw [h.answer]
  refine Ram.readWord_eq_word ?_
  rw [hsize]
  unfold addressSpace
  omega

theorem Spans.answer_readWord_last (h : bus.Spans ram) :
    (bus.answer 0xffff .readWord).1 = .error (.outOfBounds 0xffff addressSpace) := by
  have hsize : ram.bytes.size = addressSpace := h.size
  have hlast : ¬(0xffff : Word).toNat + 1 < ram.bytes.size := by
    rw [hsize]
    decide
  rw [h.answer]
  change ram.readWord 0xffff = _
  rw [Ram.readWord, dif_neg hlast, h.size]

theorem Spans.word? (h : bus.Spans ram) (address : Nat) :
    bus.word? address = if address ≤ 0xfffe then some (ram.word address) else none := by
  unfold Bus.word? addressSpace
  by_cases hlast : address = 0xffff
  · subst hlast
    rw [if_pos (by decide), if_neg (by decide)]
    change (bus.answer 0xffff .readWord).1.toOption = none
    rw [h.answer_readWord_last]
    rfl
  · by_cases hlt : address < 0x10000
    · have haddress : (UInt16.ofNat address).toNat = address := by
        rw [UInt16.toNat_ofNat', Nat.mod_eq_of_lt hlt]
      rw [if_pos hlt, if_pos (by omega), h.answer_readWord (by omega), haddress]
      rfl
    · rw [if_neg hlt, if_neg (by omega)]

theorem Spans.word?_eq_some_iff (h : bus.Spans ram) {address : Nat} {word : Word} :
    bus.word? address = some word ↔ address ≤ 0xfffe ∧ word = ram.word address := by
  rw [h.word?]
  split
  next hle => simp [hle, eq_comm]
  next hle => simp [hle]

/-- The words that are held on such a bus are those of the memory. -/
theorem Spans.holds_iff (h : bus.Spans ram) {address : Nat} {words : List Word} :
    bus.Holds address words ↔
      words = ram.words address words.length ∧
        (words ≠ [] → address + 2 * words.length ≤ 0x10000) := by
  induction words generalizing address with
  | nil => simp [Holds, Ram.words]
  | cons word words ih =>
    rw [Holds, h.word?_eq_some_iff, ih, List.length_cons, Ram.words, List.cons.injEq]
    constructor
    · rintro ⟨⟨hle, hword⟩, hwords, hend⟩
      refine ⟨⟨hword, hwords⟩, fun _ => ?_⟩
      cases words with
      | nil => simpa using hle
      | cons _ _ =>
        have := hend (List.cons_ne_nil _ _)
        omega
    · rintro ⟨⟨hword, hwords⟩, hend⟩
      have := hend (List.cons_ne_nil _ _)
      exact ⟨⟨by omega, hword⟩, hwords, fun _ => by omega⟩

end

end Bus

/-! ## The end of the stack -/

/-- The fault of pops that go on for ever from an address on. -/
def endFault (sp : Word) : Fault :=
  if sp = 0xffff then .addressOverflow 0x10001
  else if sp.toNat % 2 = 0 then .addressOverflow 0x10000
  else .outOfBounds 0xffff 0x10000

theorem endFault_of_toNat {sp top : Word} (htop : top.toNat = sp.toNat + 2)
    (hle : top.toNat ≤ 0xfffe) : endFault top = endFault sp := by
  have hlast : top ≠ 0xffff ∧ sp ≠ 0xffff := by
    rw [Ne, Ne, ← UInt16.toNat_inj, ← UInt16.toNat_inj, show (0xffff : Word).toNat = 0xffff from rfl]
    omega
  unfold endFault
  rw [if_neg hlast.1, if_neg hlast.2, htop, Nat.add_mod_right]

namespace Microcode

variable {α β : Type} {bus : Bus Ram} {ram : Ram} {fault : Fault}

/-- If pops that go on for ever from where the stack pointer is fail with a fault, the same is so when
    microcode has completed, and it fails with no other fault. -/
def EndsAt (bus : Bus Ram) (fault : Fault) (code : Microcode α) : Prop :=
  ∀ core, endFault (core.get .sp) = fault →
    match (code core).eval bus with
    | (.ok (_, core'), bus') => endFault (core'.get .sp) = fault ∧ bus' = bus
    | (.error f, _) => f = fault

theorem EndsAt.bind {code : Microcode α} {next : α → Microcode β} (hc : EndsAt bus fault code)
    (hn : ∀ a, EndsAt bus fault (next a)) : EndsAt bus fault (code >>= next) := by
  intro core hcore
  have h := hc core hcore
  change match ((code core).bind fun r => next r.1 r.2).eval bus with
    | (.ok (_, core'), bus') => endFault (core'.get .sp) = fault ∧ bus' = bus
    | (.error f, _) => f = fault
  rw [BusProgram.eval_bind]
  generalize (code core).eval bus = outcome at h ⊢
  obtain ⟨f | ⟨a, core'⟩, bus'⟩ := outcome
  · exact h
  · obtain ⟨hcore', rfl⟩ := h
    exact hn a core' hcore'

theorem endsAt_pure (a : α) : EndsAt bus fault (pure a : Microcode α) := fun _ h => ⟨h, rfl⟩

theorem endsAt_set {r : Register} (hr : r ≠ .sp) (word : Word) : EndsAt bus fault (set r word) := by
  intro core hcore
  refine ⟨?_, rfl⟩
  rw [Core.get_set, if_neg hr]
  exact hcore

theorem endsAt_setFrameSize (size : Word) : EndsAt bus fault (setFrameSize size) :=
  fun _ h => ⟨h, rfl⟩

theorem endsAt_forM {l : List α} {body : α → Microcode Unit}
    (h : ∀ a ∈ l, EndsAt bus fault (body a)) : EndsAt bus fault (l.forM body) := by
  induction l with
  | nil => exact endsAt_pure ()
  | cons a l ih =>
    exact (h a List.mem_cons_self).bind fun _ => ih fun b hb => h b (List.mem_cons_of_mem a hb)

/-- A pop that fails is the last of pops that go on for ever. -/
theorem pop_endsAt (hbus : bus.Spans ram) : EndsAt bus fault pop := by
  intro core hcore
  have hsp := (core.get .sp).toNat_lt
  -- a word at the last address runs past the memory, and one behind it past the addresses
  by_cases hlt : (core.get .sp).toNat + 2 < 0x10000
  · have htop : ((core.raised 1).get .sp).toNat = (core.get .sp).toNat + 2 := Core.toNat_sp_raised hlt
    have hpop : pop core = .access ((core.raised 1).get .sp) .readWord fun word =>
        .done (word, core.raised 1) := by
      change (check core.popped core).bind _ = _
      rw [Core.popped_eq_ok_iff.mpr ⟨hlt, rfl⟩]
      rfl
    have hread : Device.answer bus ((core.raised 1).get .sp) .readWord =
      ((bus.answer ((core.raised 1).get .sp) .readWord).1, bus) :=
        Prod.ext rfl (Bus.answer_read _ rfl)
    rw [hpop, BusProgram.eval, hread]
    by_cases hle : ((core.raised 1).get .sp).toNat ≤ 0xfffe
    · rw [hbus.answer_readWord hle]
      exact ⟨(endFault_of_toNat htop hle).trans hcore, rfl⟩
    · have hlast : (core.raised 1).get .sp = 0xffff := by
        rw [← UInt16.toNat_inj, show (0xffff : Word).toNat = 0xffff from rfl]
        omega
      have hne : core.get .sp ≠ 0xffff := by
        intro h
        rw [h] at hlt
        exact absurd hlt (by decide)
      rw [hlast, hbus.answer_readWord_last]
      rw [endFault, if_neg hne, if_neg (by omega)] at hcore
      exact hcore
  · have hpop : pop core = .fault (.addressOverflow ((core.get .sp).toNat + 2)) := by
      change (check core.popped core).bind _ = _
      rw [Core.popped, effectiveAddress, show (2 : Word).toNat = 2 from rfl, if_neg hlt]
      rfl
    rw [hpop, ← hcore, endFault]
    change Fault.addressOverflow _ = _
    by_cases hlast : core.get .sp = 0xffff
    · rw [if_pos hlast, hlast]
      rfl
    · have hne : (core.get .sp).toNat ≠ 0xffff := fun h => hlast (UInt16.toNat_inj.mp h)
      rw [if_neg hlast, if_pos (by omega), show (core.get .sp).toNat + 2 = 0x10000 by omega]

theorem drop_endsAt (hbus : bus.Spans ram) : ∀ n, EndsAt bus fault (drop n)
  | 0 => endsAt_pure ()
  | n + 1 => (pop_endsAt hbus).bind fun _ => drop_endsAt hbus n

/-- What a return does when the stack pointer is at the frame pointer. -/
def unload (fp : Word) : Microcode Unit := do
  let size ← pop
  setFrameSize size
  set .ip (← pop)
  Register.general.reverse.forM fun r => do set r (← pop)
  drop (← pop).toNat
  set .fp (fp + size)

theorem leave_apply (core : Core) :
    leave core = unload (core.get .fp) (core.set .sp (core.get .fp)) := rfl

theorem unload_endsAt (hbus : bus.Spans ram) (fp : Word) : EndsAt bus fault (unload fp) := by
  refine (pop_endsAt hbus).bind fun size => (endsAt_setFrameSize size).bind fun _ =>
    (pop_endsAt hbus).bind fun ip => (endsAt_set (by decide) ip).bind fun _ =>
      (endsAt_forM fun r hr => (pop_endsAt hbus).bind fun word => endsAt_set ?_ word).bind fun _ =>
        (pop_endsAt hbus).bind fun count => (drop_endsAt hbus count.toNat).bind fun _ =>
          endsAt_set (by decide) (fp + size)
  exact ne_of_mem_of_not_mem hr (by decide)

/-- A return that fails does so where pops from the frame pointer on end. -/
theorem leave_eval_eq_error (hbus : bus.Spans ram) {core : Core} {bus' : Bus Ram}
    (h : (leave core).eval bus = (.error fault, bus')) : fault = endFault (core.get .fp) := by
  have hends : EndsAt bus (endFault (core.get .fp)) (unload (core.get .fp)) :=
    unload_endsAt hbus (core.get .fp)
  specialize hends (core.set .sp (core.get .fp)) (by rw [Core.get_set, if_pos rfl])
  rw [leave_apply] at h
  rw [h] at hends
  exact hends

end Microcode

namespace Machine

variable {machine : Machine Ram} {ram : Ram}

/-! ## Returns -/

/-- The words that a return would drop, according to the word above the registers it loads. -/
def dropCount (machine : Machine Ram) (ram : Ram) : Word :=
  ram.word ((machine.core.get .fp).toNat + 22)

/-- A return has loaded all it loads from a memory: the machine is `machine` before it and `after`
    after it. -/
structure LoadsFrame (ram : Ram) (machine after : Machine Ram) : Prop where
  ip : after.core.get .ip = ram.word ((machine.core.get .fp).toNat + 4)
  /-- the general registers are loaded from the last one to the first -/
  general : ∀ i r, Register.general.reverse[i]? = some r →
    after.core.get r = ram.word ((machine.core.get .fp).toNat + 6 + 2 * i)
  sp : (after.core.get .sp).toNat =
    (machine.core.get .fp).toNat + 22 + 2 * (machine.dropCount ram).toNat
  fp : after.core.get .fp = machine.core.get .fp + ram.word ((machine.core.get .fp).toNat + 2)
  frameSize : after.core.frameSize =
    ram.word ((machine.core.get .fp).toNat + 2) - 20 - 2 * machine.dropCount ram
  acc : after.core.get .acc = machine.core.get .acc
  bus : after.bus = machine.bus

/-- The opcode of a return is the whole instruction. -/
theorem instruction?_of_ret (hbus : machine.bus.Spans ram) (hm : machine.halted = false)
    (hret : ram.bytes[(machine.core.get .ip).toNat]? = some 0x60) :
    machine.instruction? = some .ret ∧
      Microcode.fetchInstruction.Completes machine.core machine.bus .ret (machine.core.advanced 1)
        machine.bus := by
  have hread : Device.answer machine.bus (machine.core.get .ip) .readByte =
      (.ok 0x60, machine.bus) := by
    refine Prod.ext ?_ (Bus.answer_read _ rfl)
    refine (hbus.answer _ _).trans ?_
    change ram.readByte _ = _
    rw [Ram.readByte_eq, hret]
  have hfetch : Microcode.fetchInstruction.Completes machine.core machine.bus .ret
      (machine.core.advanced 1) machine.bus := by
    refine Microcode.completes_bind.mpr ⟨0x60, machine.core.advanced 1, machine.bus, ?_, ?_⟩
    · exact Microcode.fetchByte_completes_iff.mpr ⟨hread, rfl⟩
    · exact Microcode.completes_pure.mpr ⟨rfl, rfl, rfl⟩
  exact ⟨instruction?_eq_some_iff.mpr ⟨hm, machine.bus, hfetch⟩, hfetch⟩

section

variable (hbus : machine.bus.Spans ram) (hm : machine.halted = false)
  (hret : ram.bytes[(machine.core.get .ip).toNat]? = some 0x60)

include hbus hm hret

/-- A return whose last word is inside the address space succeeds. -/
theorem loadsFrame_of_le
    (hle : (machine.core.get .fp).toNat + 22 + 2 * (machine.dropCount ram).toNat ≤ 0xfffe) :
    machine.step.1 = .ok false ∧ LoadsFrame ram machine machine.step.2 := by
  obtain ⟨hi, -⟩ := instruction?_of_ret hbus hm hret
  have hfp : (machine.core.advanced 1).get .fp = machine.core.get .fp :=
    Core.get_advanced_of_ne _ _ (by decide)
  -- the registers get the words at their places
  let f : Register → Word := fun r =>
    ram.word ((machine.core.get .fp).toNat + 6 + 2 * Register.general.reverse.idxOf r)
  have hsaved : Register.general.reverse.map f = ram.words ((machine.core.get .fp).toNat + 6) 8 := rfl
  have hholds : machine.bus.Holds ((machine.core.get .fp).toNat + 2)
      (ram.words ((machine.core.get .fp).toNat + 2) (11 + (machine.dropCount ram).toNat)) := by
    rw [hbus.holds_iff, Ram.length_words]
    exact ⟨rfl, fun _ => by omega⟩
  rw [Ram.words_add, show (11 : Nat) = 2 + (8 + 1) from rfl, Ram.words_add, Ram.words_add] at hholds
  have hleave := (@Microcode.leave_completes_iff (machine.core.advanced 1) _ machine.bus _).mpr
    ⟨ram.word ((machine.core.get .fp).toNat + 2), ram.word ((machine.core.get .fp).toNat + 4),
      Register.general.reverse.map f, machine.dropCount ram,
      ram.words ((machine.core.get .fp).toNat + 24) (machine.dropCount ram).toNat, rfl,
      Ram.length_words _ _ _, by rw [hfp, hsaved]; simpa [Ram.words, dropCount] using hholds, rfl, rfl⟩
  obtain ⟨hok, hcore, hbus'⟩ := step_ret_of_leave hi hleave
  refine ⟨hok, ?_⟩
  constructor
  case ip => rw [hcore, Core.get_ip_returned]
  case general =>
    intro i r hr
    have hmem : r ∈ Register.general := List.mem_reverse.mp (List.mem_of_getElem? hr)
    have hidx : Register.general.reverse.idxOf r = i := by
      obtain ⟨hlt, rfl⟩ := List.getElem?_eq_some_iff.mp hr
      exact List.Nodup.idxOf_getElem (by decide) i hlt
    rw [hcore, Core.get_returned (ne_of_mem_of_not_mem hmem (by decide)), if_pos hmem]
    change ram.word ((machine.core.get .fp).toNat + 6 + 2 * Register.general.reverse.idxOf r) = _
    rw [hidx]
  case sp =>
    rw [hcore, Core.get_returned (by decide), if_neg (by decide), if_neg (by decide), if_pos rfl, hfp,
      UInt16.toNat_add, UInt16.toNat_add, UInt16.toNat_mul, show (22 : Word).toNat = 22 from rfl,
      show (2 : Word).toNat = 2 from rfl]
    omega
  case fp => rw [hcore, Core.get_fp_returned, hfp]
  case frameSize => rw [hcore, Core.frameSize_returned]
  case acc =>
    rw [hcore, Core.get_returned (by decide), if_neg (by decide), if_neg (by decide),
      if_neg (by decide), Core.get_advanced_of_ne _ _ (by decide)]
  case bus => exact hbus'

/-- A return that succeeds has loaded its last word inside the address space. -/
theorem le_of_step_ret {b : Bool} (h : machine.step.1 = .ok b) :
    (machine.core.get .fp).toNat + 22 + 2 * (machine.dropCount ram).toNat ≤ 0xfffe := by
  obtain ⟨hi, -⟩ := instruction?_of_ret hbus hm hret
  obtain ⟨_, _, count, dropped, -, hlen, -, hdropped⟩ := holds_of_step_ret hi h
  obtain ⟨-, hcount⟩ := hbus.word?_eq_some_iff.mp hdropped.1
  obtain rfl : count = machine.dropCount ram := hcount
  have hend := (hbus.holds_iff.mp hdropped).2 nofun
  rw [List.length_cons, hlen] at hend
  omega

/-- A return that fails does so at the end of the address space and changes nothing. -/
theorem fault_of_step_ret {fault : Fault} (h : machine.step.1 = .error fault) :
    fault = endFault (machine.core.get .fp) := by
  obtain ⟨-, hfetch⟩ := instruction?_of_ret hbus hm hret
  unfold Microcode.Completes at hfetch
  rw [result_step hm, Microcode.eval_instruction, hfetch] at h
  replace h := map_eq_error_iff.mp h
  change (((Microcode.leave (machine.core.advanced 1)).bind _).eval machine.bus).1 = _ at h
  rw [BusProgram.eval_bind] at h
  have hfp : (machine.core.advanced 1).get .fp = machine.core.get .fp :=
    Core.get_advanced_of_ne _ _ (by decide)
  generalize hleave : (Microcode.leave (machine.core.advanced 1)).eval machine.bus = outcome at h
  obtain ⟨f | ⟨_, core⟩, bus⟩ := outcome
  · cases h
    rw [Microcode.leave_eval_eq_error hbus hleave, hfp]
  · cases h

end

/-- A return on a memory over the whole address space, whatever it holds and whatever the registers
    are. -/
theorem step_ret {older : Bus Ram} {remap : Bool}
    (hbus : machine.bus = older.map ram 0x0000 0xffff remap) (hsize : ram.size = 0x10000)
    (hm : machine.halted = false)
    (hret : ram.bytes[(machine.core.get .ip).toNat]? = some 0x60) :
    ((∃ b, machine.step.1 = .ok b) ↔ (machine.core.get .fp).toNat + 22 ≤ 0xfffe ∧
      (machine.core.get .fp).toNat + 22 + 2 * (machine.dropCount ram).toNat ≤ 0xfffe) ∧
    (∀ b, machine.step.1 = .ok b → b = false ∧ LoadsFrame ram machine machine.step.2) ∧
    (∀ fault, machine.step.1 = .error fault →
      fault = endFault (machine.core.get .fp) ∧ machine.step.2.SameState machine) ∧
    (0x7fff < (machine.dropCount ram).toNat → ∃ fault, machine.step.1 = .error fault) := by
  have hspans : machine.bus.Spans ram := hbus ▸ Bus.spans_map older hsize remap
  refine ⟨⟨?_, ?_⟩, ?_, ?_, ?_⟩
  · rintro ⟨b, hb⟩
    have := le_of_step_ret hspans hm hret hb
    omega
  · rintro ⟨-, hle⟩
    exact ⟨false, (loadsFrame_of_le hspans hm hret hle).1⟩
  · intro b hb
    obtain ⟨hok, hloads⟩ := loadsFrame_of_le hspans hm hret (le_of_step_ret hspans hm hret hb)
    rw [hb] at hok
    exact ⟨Except.ok.inj hok, hloads⟩
  · intro fault h
    exact ⟨fault_of_step_ret hspans hm hret h, sameState_of_step_eq_error h⟩
  · intro hcount
    cases h : machine.step.1 with
    | error fault => exact ⟨fault, rfl⟩
    | ok b =>
      have := le_of_step_ret hspans hm hret h
      omega

/-- Memory full of the opcode of a return. -/
def returns : Ram := ⟨Array.replicate Bus.addressSpace 0x60⟩

/-- A machine on that memory with a frame pointer. -/
def onlyReturns (fp : Word) : Machine Ram :=
  ⟨Core.initial.set .fp fp, Bus.empty.map returns 0x0000 0xffff true, false, #[]⟩

theorem getElem?_returns {i : Nat} (h : i < 0x10000) : returns.bytes[i]? = some 0x60 := by
  rw [returns, Array.getElem?_replicate]
  exact if_pos h

theorem dropCount_onlyReturns {fp : Word} (h : fp.toNat + 23 < 0x10000) :
    (onlyReturns fp).dropCount returns = 0x6060 := by
  have hfp : (onlyReturns fp).core.get .fp = fp := by
    change (Core.initial.set .fp fp).get .fp = fp
    rw [Core.get_set, if_pos rfl]
  rw [dropCount, hfp, Ram.word, Array.getD_eq_getD_getElem?, Array.getD_eq_getD_getElem?,
    getElem?_returns (by omega), getElem?_returns (by omega)]
  rfl

theorem step_onlyReturns :
    (onlyReturns 0).step.1 = .ok false ∧
      ((onlyReturns 0).step.2.core.get .sp).toNat = 22 + 2 * 0x6060 ∧
      (onlyReturns 0x8001).step.1 = .error (.outOfBounds 0xffff 0x10000) := by
  have hlow := @dropCount_onlyReturns 0 (by decide)
  have hhigh := @dropCount_onlyReturns 0x8001 (by decide)
  have hreturns := @step_ret (onlyReturns 0) returns Bus.empty true rfl Array.size_replicate rfl
    (getElem?_returns (by decide))
  have hfails := @step_ret (onlyReturns 0x8001) returns Bus.empty true rfl Array.size_replicate rfl
    (getElem?_returns (by decide))
  rw [hlow] at hreturns
  rw [hhigh] at hfails
  obtain ⟨b, hb⟩ := hreturns.1.mpr (by decide)
  obtain ⟨rfl, hloads⟩ := hreturns.2.1 b hb
  have hsp := hloads.sp
  rw [hlow] at hsp
  refine ⟨hb, hsp, ?_⟩
  cases hstep : (onlyReturns 0x8001).step.1 with
  | error fault => rw [(hfails.2.2.1 fault hstep).1]; rfl
  | ok b => exact absurd (hfails.1.mp ⟨b, hstep⟩) (by decide)

end Machine

end WordMachine
