import Mathlib.Data.List.Forall2
import WordMachine.Proofs.Faults
import WordMachine.Proofs.Footprint

/-!
# Literal and register forms

Most instructions come in two forms, one with a value that is written out and one with a value that is
read from a register. If the register holds the value, the two forms do the same, apart from how far
they move the instruction pointer. The buses may hold different things then, so it has to be said how
they end the accesses: `Device.Interchangeable` is the law that relates two devices. A call is special,
since the return address that it stores is behind it and thus not the same in both forms. A memory
does not mind, but a screen draws the two words in different ways, and may have room for one of them
only.

* `Forms.effect`, `Forms.target?`, `Forms.plan`: what the two forms have in common, form by form.
* `Matches.ofPlan`: how plans end on two buses that are alike.
* `TwoForms.sameEffect`: two steps that succeed.
* `TwoForms.result`: how two steps end on buses that match.
* `forms_agree`: all of it, with the law for memories and screens.
* `call_refused`: a screen takes the call of one form and refuses that of the other.
-/

namespace WordMachine

variable {α δ σ : Type}

/-! ## Pairs of forms -/

namespace Core

variable {r : Register}

/-- Behind an instruction the registers other than the instruction pointer are as in front of it. -/
theorem valueOf_advanced (core : Core) (n : Word) (hr : r ≠ .ip) :
    (core.advanced n).valueOf (.register r) = core.get r :=
  core.get_advanced_of_ne n (Ne.symm hr)

theorem comparand_literal (core : Core) (address word : Word) :
    core.comparand address (.literal word) = word :=
  if_neg (by simp)

theorem comparand_advanced (core : Core) (address n : Word) (hr : r ≠ .ip) :
    (core.advanced n).comparand address (.register r) = core.get r := by
  rw [comparand, if_neg (by simpa using hr), core.valueOf_advanced n hr]

end Core

namespace Instruction

/-- A literal form and the register form next to it, with a register that holds the literal on a core.
    None of the registers is the instruction pointer. -/
inductive Forms (core : Core) : Instruction → Instruction → Prop
  | move {r target : Register} (hr : r ≠ .ip) (htarget : target ≠ .ip) :
      Forms core (.move (.literal (core.get r)) target) (.move (.register r) target)
  | store {r : Register} (hr : r ≠ .ip) (target : Word) :
      Forms core (.store (.literal (core.get r)) target) (.store (.register r) target)
  | arithmetic {r second : Register} (operation : Arithmetic) (hr : r ≠ .ip) (hsecond : second ≠ .ip) :
      Forms core (.arithmetic operation (.literal (core.get r)) second)
        (.arithmetic operation (.register r) second)
  /-- the other subtraction with a literal, which is the minuend in both -/
  | literalMinus {r subtrahend : Register} (hr : r ≠ .ip) (hsubtrahend : subtrahend ≠ .ip) :
      Forms core (.literalMinus subtrahend (core.get r)) (.arithmetic .sub (.register r) subtrahend)
  | shift {r target : Register} (direction : Shift) (hr : r ≠ .ip) (htarget : target ≠ .ip) :
      Forms core (.shift direction target (.literal (core.get r)))
        (.shift direction target (.register r))
  | bitwise {r target : Register} (operation : Bitwise) (hr : r ≠ .ip) (htarget : target ≠ .ip) :
      Forms core (.bitwise operation target (.literal (core.get r)))
        (.bitwise operation target (.register r))
  | jump {r : Register} (condition : Comparison) (hr : r ≠ .ip) (target : Word) :
      Forms core (.jump condition (.literal (core.get r)) target)
        (.jump condition (.register r) target)
  | push {r : Register} (hr : r ≠ .ip) :
      Forms core (.push (.literal (core.get r))) (.push (.register r))
  | call {r : Register} (hr : r ≠ .ip) :
      Forms core (.call (.literal (core.get r))) (.call (.register r))

namespace Forms

variable {core : Core} {i i' : Instruction}

theorem loads (h : Forms core i i') : i.loads = false ∧ i'.loads = false := by
  cases h <;> exact ⟨rfl, rfl⟩

theorem not_halt (h : Forms core i i') :
    (i.opcode == .halt) = false ∧ (i'.opcode == .halt) = false := by
  cases h <;> exact ⟨rfl, rfl⟩

theorem ne_ret (h : Forms core i i') : i ≠ .ret ∧ i' ≠ .ret := by
  cases h <;> simp

theorem destination?_ne (h : Forms core i i') :
    i.destination? ≠ some .ip ∧ i'.destination? ≠ some .ip := by
  cases h <;> simp_all [destination?]

/-- The two forms leave the same registers, except for the instruction pointer, and the same size of
    the frame. -/
theorem effect (h : Forms core i i') (address : Word) :
    (∀ r, r ≠ .ip → (i.effect address (core.advanced i.length)).get r =
      (i'.effect address (core.advanced i'.length)).get r) ∧
    (i.effect address (core.advanced i.length)).frameSize =
      (i'.effect address (core.advanced i'.length)).frameSize := by
  have hget : ∀ (n : Word) {r : Register}, r ≠ .ip → (core.advanced n).get r = core.get r :=
    fun n _ hr => core.get_advanced_of_ne n (Ne.symm hr)
  have hsp : Register.sp ≠ .ip := by decide
  have hset : ∀ (m n : Word) (target : Register) (word : Word),
      (∀ r, r ≠ .ip → ((core.advanced m).set target word).get r =
        ((core.advanced n).set target word).get r) ∧
      ((core.advanced m).set target word).frameSize =
        ((core.advanced n).set target word).frameSize := by
    intro m n target word
    refine ⟨fun r hr => ?_, rfl⟩
    rw [Core.get_set, Core.get_set, hget m hr, hget n hr]
  cases h with
  | move hr htarget =>
    simp only [Instruction.effect, core.valueOf_advanced _ hr]
    exact hset _ _ _ _
  | store hr target =>
    simp only [Instruction.effect, Core.frameSize_advanced, and_true]
    exact fun r hr => by rw [hget _ hr, hget _ hr]
  | arithmetic operation hr hsecond =>
    simp only [Instruction.effect, core.valueOf_advanced _ hr, hget _ hsecond]
    exact hset _ _ _ _
  | literalMinus hr hsubtrahend =>
    simp only [Instruction.effect, core.valueOf_advanced _ hr, hget _ hsubtrahend]
    exact hset _ _ _ _
  | shift direction hr htarget =>
    simp only [Instruction.effect, core.valueOf_advanced _ hr, hget _ htarget]
    exact hset _ _ _ _
  | bitwise operation hr htarget =>
    simp only [Instruction.effect, core.valueOf_advanced _ hr, hget _ htarget]
    exact hset _ _ _ _
  | jump condition hr target =>
    simp only [Instruction.effect, Core.comparand_literal, core.comparand_advanced _ _ hr,
      hget _ (show Register.acc ≠ .ip by decide)]
    split
    · exact hset _ _ _ _
    · exact ⟨fun s hs => by rw [hget _ hs, hget _ hs], rfl⟩
  | push hr =>
    simp only [Instruction.effect, Core.frameSize_pushed, Core.frameSize_advanced, and_true]
    intro r hr
    simp only [Core.get_pushed, hget _ hr, hget _ hsp]
  | call hr =>
    simp only [Instruction.effect, Core.frameSize_set, Core.frameSize_entered, and_true]
    intro r hr
    simp only [Core.get_set, if_neg (Ne.symm hr), Core.get_entered, hget _ hr, hget _ hsp]

/-- The two forms go on at the same place if they do not go on behind themselves. -/
theorem target? (h : Forms core i i') (address : Word) :
    i.target? address (core.advanced i.length) = i'.target? address (core.advanced i'.length) := by
  cases h with
  | jump condition hr target =>
    have hacc : ∀ n, (core.advanced n).get .acc = core.get .acc :=
      fun n => core.get_advanced_of_ne n (by decide)
    simp only [Instruction.target?, hacc, Core.comparand_literal, core.comparand_advanced _ _ hr]
  | call hr => exact congrArg some (core.valueOf_advanced _ hr).symm
  | _ => simp only [Instruction.target?]

end Forms

/-! ## What the two forms store -/

/-- The words that a call stores that is `n` bytes long: the saved registers, the return address and
    the size of the frame. -/
theorem stores_call (operand : Operand) (core : Core) (n : Word) :
    (call operand).stores (core.advanced n) =
      (slots (core.get .sp) 8).zip (Register.general.map core.get) ++
        [(core.get .sp - 16, core.get .ip + n), (core.get .sp - 18, core.frameSize + 20)] := by
  have hsaved : Register.general.map (core.advanced n).get = Register.general.map core.get :=
    List.map_congr_left fun r hr =>
      core.get_advanced_of_ne n (ne_of_mem_of_not_mem hr (by decide)).symm
  have hsp : (core.advanced n).get .sp = core.get .sp := core.get_advanced_of_ne n (by decide)
  have hip : (core.advanced n).get .ip = core.get .ip + n := by rw [Core.get_advanced, if_pos rfl]
  have hsplit : (call operand).stores (core.advanced n) =
      (slots ((core.advanced n).get .sp) 8).zip (Register.general.map (core.advanced n).get) ++
        [((core.advanced n).get .sp - 16, (core.advanced n).get .ip),
          ((core.advanced n).get .sp - 18, (core.advanced n).frameSize + 20)] := rfl
  rw [hsplit, hsaved, hsp, hip, Core.frameSize_advanced]

/-- Two accesses are the same, or they write two given words to one of the excused addresses. -/
inductive Similar (excused : Word → Prop) (word word' : Word) :
    Word × Request → Word × Request → Prop
  | same (access : Word × Request) : Similar excused word word' access access
  | excused {a : Word} (h : excused a) :
      Similar excused word word' (a, .writeWord word) (a, .writeWord word')

/-- Where the two forms of an instruction may store different words: where a call stores the return
    address. -/
def Excused (core : Core) (i : Instruction) (a : Word) : Prop :=
  (∃ operand, i = .call operand) ∧ a = core.get .sp - 16

theorem frameWrites_eq (operand : Operand) (core : Core) :
    core.frameWrites = ((call operand).stores core).map fun s => (s.1, .writeWord s.2) := by
  rw [Core.frameWrites, wordWrites, ← List.map_uncurry_zip_eq_zipWith]
  rfl

namespace Forms

variable {core : Core} {i i' : Instruction}

/-- The accesses of the two forms are the same up to the return address. -/
theorem plan (h : Forms core i i') :
    List.Forall₂ (Similar (Excused core i) (core.get .ip + i.length) (core.get .ip + i'.length))
      (i.plan (core.advanced i.length)) (i'.plan (core.advanced i'.length)) := by
  have hsp : ∀ n, (core.advanced n).get .sp = core.get .sp :=
    fun n => core.get_advanced_of_ne n (by decide)
  have hsame : ∀ {excused : Word → Prop} {word word' : Word} (plan : List (Word × Request)),
      List.Forall₂ (Similar excused word word') plan plan :=
    fun plan => List.forall₂_same.mpr fun access _ => .same access
  cases h with
  | store hr target =>
    simp only [Instruction.plan, core.valueOf_advanced _ hr]
    exact hsame _
  | push hr =>
    simp only [Instruction.plan, core.valueOf_advanced _ hr, hsp]
    exact hsame _
  | @call r hr =>
    have hreads : ∀ n, (core.advanced n).frameReads = wordReads (slots (core.get .sp) 10) := by
      intro n
      rw [Core.frameReads, hsp]
    simp only [Instruction.plan, hreads, frameWrites_eq (.literal (core.get r)), stores_call,
      List.map_append, List.map_cons, List.map_nil]
    refine List.rel_append (hsame _) (List.rel_append (hsame _) (.cons ?_ (hsame _)))
    exact .excused ⟨⟨_, rfl⟩, rfl⟩
  | _ => exact .nil

theorem exists_call {operand : Operand} (h : Forms core (.call operand) i') : ∃ operand', i' = .call operand' := by
  cases h with
  | call hr => exact ⟨_, rfl⟩

/-- Forms that do not call store the same words. -/
theorem stores (h : Forms core i i') (hcall : ∀ operand, i ≠ .call operand) :
    i.stores (core.advanced i.length) = i'.stores (core.advanced i'.length) := by
  have hsp : ∀ n, (core.advanced n).get .sp = core.get .sp :=
    fun n => core.get_advanced_of_ne n (by decide)
  cases h with
  | store hr target =>
    simp only [Instruction.stores, core.valueOf_advanced _ hr]
    rfl
  | push hr =>
    simp only [Instruction.stores, core.valueOf_advanced _ hr, hsp]
    rfl
  | call hr => exact absurd rfl (hcall _)
  | _ => simp only [Instruction.stores]

end Forms

end Instruction

/-! ## Buses that are alike -/

/-- Devices in a relation end the same accesses alike and are in the relation afterwards, also if only
    one of them is read. The free ones among them also end writes of two given words alike, one word
    each, and stay free. -/
structure Device.Interchangeable [Device δ] (alike : δ → δ → Prop) (free : δ → Prop)
    (word word' : Word) : Prop where
  symm : ∀ {device device' : δ}, alike device device' → alike device' device
  same : ∀ {device device' : δ} (a : Word) (request : Request), alike device device' →
    ending device a request = ending device' a request ∧
      alike (answer device a request).2 (answer device' a request).2
  read : ∀ {device device' : δ} (a : Word) {request : Request}, alike device device' →
    request.isWrite = false → alike (answer device a request).2 device'
  any : ∀ {device device' : δ} (a : Word), alike device device' → free device →
    ending device a (.writeWord word) = ending device' a (.writeWord word') ∧
      alike (answer device a (.writeWord word)).2 (answer device' a (.writeWord word')).2
  free : ∀ {device : δ} (a : Word) (request : Request), free device →
    free (answer device a request).2

/-- Regions with the same number and range whose devices are in a relation. -/
structure Region.Matches (alike : δ → δ → Prop) (region region' : Region δ) : Prop where
  range : region.withDevice () = region'.withDevice ()
  device : alike region.device region'.device

namespace Region

variable {alike : δ → δ → Prop} {region region' : Region δ}

theorem Matches.contains (h : Matches alike region region') : region.contains = region'.contains := by
  rw [← contains_withDevice region (), h.range, contains_withDevice]

theorem Matches.localAddress (h : Matches alike region region') :
    region.localAddress = region'.localAddress := by
  rw [← localAddress_withDevice region (), h.range, localAddress_withDevice]

theorem Matches.withDevice (h : Matches alike region region') {device device' : δ}
    (hdevice : alike device device') :
    Matches alike (region.withDevice device) (region'.withDevice device') where
  range := h.range
  device := hdevice

variable [Device δ]

theorem answer_eq (region : Region δ) (a : Word) (request : Request) :
    region.answer a request =
      ((Device.answer region.device (region.localAddress a) request).1,
        region.withDevice (Device.answer region.device (region.localAddress a) request).2) := rfl

/-- An access goes to regions in the same place. If their devices end it alike, so do the lists. -/
theorem answerFirst_matches {regions regions' : List (Region δ)} {a : Word} {request request' : Request}
    (h : List.Forall₂ (Matches alike) regions regions')
    (hdevice : ∀ region, regions.find? (·.contains a) = some region → ∀ device',
      alike region.device device' →
      Device.ending region.device (region.localAddress a) request =
          Device.ending device' (region.localAddress a) request' ∧
        alike (Device.answer region.device (region.localAddress a) request).2
          (Device.answer device' (region.localAddress a) request').2) :
    (answerFirst a request regions).1.map (fun _ => ()) =
        (answerFirst a request' regions').1.map (fun _ => ()) ∧
      List.Forall₂ (Matches alike) (answerFirst a request regions).2
        (answerFirst a request' regions').2 := by
  induction h with
  | nil => exact ⟨rfl, .nil⟩
  | @cons region region' older older' hregion holder ih =>
    rw [answerFirst, answerFirst, ← hregion.contains]
    by_cases hcontains : region.contains a
    · obtain ⟨hending, halike⟩ := hdevice region (by simp [hcontains]) region'.device hregion.device
      rw [if_pos hcontains, if_pos hcontains, answer_eq, answer_eq, ← hregion.localAddress]
      exact ⟨hending, .cons (hregion.withDevice halike) holder⟩
    · obtain ⟨hending, halike⟩ := ih fun r hr => hdevice r (by simpa [hcontains] using hr)
      rw [if_neg hcontains, if_neg hcontains]
      exact ⟨hending, .cons hregion halike⟩

/-- An access that keeps its device in relation to another one may be made in one list only. -/
theorem answerFirst_matches_left {regions regions' : List (Region δ)} {a : Word} {request : Request}
    (h : List.Forall₂ (Matches alike) regions regions')
    (hdevice : ∀ {device device' : δ} inner, alike device device' →
      alike (Device.answer device inner request).2 device') :
    List.Forall₂ (Matches alike) (answerFirst a request regions).2 regions' := by
  induction h with
  | nil => exact .nil
  | @cons region region' older older' hregion holder ih =>
    rw [answerFirst]
    by_cases hcontains : region.contains a
    · rw [if_pos hcontains, answer_eq]
      exact .cons ⟨hregion.range, hdevice _ hregion.device⟩ holder
    · rw [if_neg hcontains]
      exact .cons hregion ih

end Region

namespace Bus

/-- Buses with the same regions, whose devices are in a relation one by one. -/
def Matches (alike : δ → δ → Prop) (bus bus' : Bus δ) : Prop :=
  List.Forall₂ (Region.Matches alike) bus.regions bus'.regions

/-- The device that owns an address, if there is one, is free. -/
def Free (free : δ → Prop) (bus : Bus δ) (a : Word) : Prop :=
  ∀ region, bus.owner a = some region → free region.device

section

variable [Device δ] {alike : δ → δ → Prop} {free : δ → Prop} {word word' : Word} {bus bus' : Bus δ}

theorem Matches.symm (hlaw : Device.Interchangeable alike free word word') (h : Matches alike bus bus') :
    Matches alike bus' bus :=
  (h.imp fun _ _ hregion => ⟨hregion.range.symm, hlaw.symm hregion.device⟩).flip

theorem Matches.same (hlaw : Device.Interchangeable alike free word word') (h : Matches alike bus bus') (a : Word)
    (request : Request) :
    Device.ending bus a request = Device.ending bus' a request ∧
      Matches alike (Device.answer bus a request).2 (Device.answer bus' a request).2 :=
  Region.answerFirst_matches h fun _ _ _ halike => hlaw.same _ request halike

theorem Matches.any (hlaw : Device.Interchangeable alike free word word') (h : Matches alike bus bus') {a : Word}
    (hfree : bus.Free free a) :
    Device.ending bus a (.writeWord word) = Device.ending bus' a (.writeWord word') ∧
      Matches alike (Device.answer bus a (.writeWord word)).2
        (Device.answer bus' a (.writeWord word')).2 :=
  Region.answerFirst_matches h fun region howner _ halike =>
    hlaw.any _ halike (hfree region howner)

theorem Matches.read (hlaw : Device.Interchangeable alike free word word') (h : Matches alike bus bus') (a : Word)
    {request : Request} (hread : request.isWrite = false) :
    Matches alike (Device.answer bus a request).2 bus' :=
  Region.answerFirst_matches_left h fun _ halike => hlaw.read _ halike hread

/-- Fetches, which only read, may be made on one of the buses only. -/
theorem Matches.eval (hlaw : Device.Interchangeable alike free word word') {p : BusProgram α} (hp : p.ReadsOnly)
    (h : Matches alike bus bus') : Matches alike (p.eval bus).2 bus' := by
  induction p generalizing bus with
  | done result => exact h
  | fault f => exact h
  | access a request next ih =>
    have hafter := h.read hlaw a hp.1
    rw [BusProgram.eval]
    generalize Device.answer bus a request = outcome at hafter
    obtain ⟨_ | reply, bus₁⟩ := outcome
    · exact hafter
    · exact ih reply (hp.2 reply) hafter
  | log entry next ih => exact ih hp h

theorem Free.answer (hlaw : Device.Interchangeable alike free word word') {a : Word} (h : bus.Free free a)
    (other : Word) (request : Request) : (Device.answer bus other request).2.Free free a := by
  intro region howner
  change (bus.answer other request).2.owner a = some region at howner
  by_cases hsame : bus.owner a = bus.owner other
  · cases hother : bus.owner other with
    | none =>
      rw [answer_of_owner_eq_none hother] at howner
      exact h region howner
    | some owner =>
      rw [owner_answer_of_eq hother (hsame.trans hother)] at howner
      cases howner
      exact hlaw.free _ request (h owner (hsame.trans hother))
  · rw [owner_answer_of_ne hsame] at howner
    exact h region howner

theorem Free.eval (hlaw : Device.Interchangeable alike free word word') {a : Word} (h : bus.Free free a)
    (p : BusProgram α) : (p.eval bus).2.Free free a := by
  induction p generalizing bus with
  | done result => exact h
  | fault f => exact h
  | access other request next ih =>
    have hafter := h.answer hlaw other request
    rw [BusProgram.eval]
    generalize Device.answer bus other request = outcome at hafter
    obtain ⟨_ | reply, bus₁⟩ := outcome
    · exact hafter
    · exact ih reply hafter
  | log entry next ih => exact ih h

/-- Plans that are similar end alike on buses that match, if the devices at the excused addresses are
    free. -/
theorem Matches.ofPlan (hlaw : Device.Interchangeable alike free word word') {excused : Word → Prop}
    {plan plan' : List (Word × Request)}
    (hplans : List.Forall₂ (Instruction.Similar excused word word') plan plan') (h : Matches alike bus bus')
    (hfree : ∀ a, excused a → bus.Free free a) :
    ((BusProgram.ofPlan plan).eval bus).1 = ((BusProgram.ofPlan plan').eval bus').1 := by
  induction hplans generalizing bus bus' with
  | nil => rfl
  | @cons access access' plan plan' hsimilar hplans ih =>
    obtain ⟨a, request, request', rfl, rfl, hending, hafter⟩ : ∃ a request request',
        access = (a, request) ∧ access' = (a, request') ∧
        Device.ending bus a request = Device.ending bus' a request' ∧
        Matches alike (Device.answer bus a request).2 (Device.answer bus' a request').2 := by
      cases hsimilar with
      | same access => exact ⟨_, _, _, rfl, rfl, h.same hlaw _ _⟩
      | excused ha => exact ⟨_, _, _, rfl, rfl, h.any hlaw (hfree _ ha)⟩
    have hfree' : ∀ b, excused b → (Device.answer bus a request).2.Free free b :=
      fun b hb => (hfree b hb).answer hlaw a request
    rw [Device.ending, Device.ending] at hending
    rw [BusProgram.ofPlan, BusProgram.ofPlan, BusProgram.eval, BusProgram.eval]
    generalize Device.answer bus a request = outcome at *
    generalize Device.answer bus' a request' = outcome' at *
    obtain ⟨_ | _, bus₁⟩ := outcome <;> obtain ⟨_ | _, bus₁'⟩ := outcome'
    · exact hending
    · cases hending
    · cases hending
    · exact ih hafter hfree'

end

end Bus

namespace Machine

variable [Device δ] {machine machine' : Machine δ} {i i' : Instruction}

/-! ## Two steps -/

/-- Two machines with the same core that are about to perform the literal form of an instruction and
    the register form of it. -/
structure TwoForms (machine machine' : Machine δ) (i i' : Instruction) : Prop where
  core : machine.core = machine'.core
  literal : machine.instruction? = some i
  register : machine'.instruction? = some i'
  forms : Instruction.Forms machine.core i i'

/-- The steps of two forms that succeed differ in nothing but the instruction pointer and the return
    address. -/
structure SameEffect (machine machine' : Machine δ) (i i' : Instruction) : Prop where
  registers : ∀ r, r ≠ .ip → machine.step.2.core.get r = machine'.step.2.core.get r
  frameSize : machine.step.2.core.frameSize = machine'.step.2.core.frameSize
  /-- the same words are written -/
  writes : (∀ operand, i ≠ .call operand) →
    machine.trace.filter (·.request.isWrite) = machine'.trace.filter (·.request.isWrite)
  /-- a call writes the same words but for the return address, which is behind the call -/
  frame : (∃ operand, i = .call operand) → ∃ before after,
    machine.trace.filter (·.request.isWrite) = before ++
      ⟨machine.core.get .sp - 16, .writeWord (machine.core.get .ip + i.length), .ok ()⟩ :: after ∧
    machine'.trace.filter (·.request.isWrite) = before ++
      ⟨machine.core.get .sp - 16, .writeWord (machine.core.get .ip + i'.length), .ok ()⟩ :: after
  /-- a jump that is taken and a call go on at the same target -/
  redirected : ∀ target,
    i.target? (machine.core.get .ip) (machine.core.advanced i.length) = some target →
    machine.step.2.core.get .ip = target ∧ machine'.step.2.core.get .ip = target
  /-- anything else goes on behind the form at hand -/
  onwards : i.target? (machine.core.get .ip) (machine.core.advanced i.length) = none →
    machine.step.2.core.get .ip = machine.core.get .ip + (1 + i.opcode.format.width) ∧
      machine'.step.2.core.get .ip = machine.core.get .ip + (1 + i'.opcode.format.width)

/-- An instruction that loads nothing ends as its plan does. -/
theorem result_of_plan {bus : Bus δ} (hm : machine.halted = false)
    (hfetch : Microcode.fetchInstruction.Completes machine.core machine.bus i
      (machine.core.advanced i.length) bus) (hi : i.loads = false) :
    machine.step.1 = ((BusProgram.ofPlan (i.plan (machine.core.advanced i.length))).eval bus).1.map
      fun _ => i.opcode == .halt := by
  have hmakes := Microcode.perform_makes hi (machine.core.get .ip) (machine.core.advanced i.length)
  rw [result_of_fetch hm hfetch, ← hmakes.eval_eq]
  generalize (Microcode.perform _ _ _).eval bus = outcome
  obtain ⟨_ | _, bus'⟩ := outcome <;> rfl

/-- An instruction that loads nothing leaves the core of its effect. -/
theorem core_of_loads {b : Bool} (hi : machine.instruction? = some i) (hloads : i.loads = false)
    (h : machine.step.1 = .ok b) :
    machine.step.2.core = i.effect (machine.core.get .ip) (machine.core.advanced i.length) := by
  obtain ⟨j, bus, hj, -, hperform, -⟩ := performs_of_step (instruction?_eq_some_iff.mp hi).1 h
  obtain rfl : i = j := Option.some.inj (hi.symm.trans hj)
  exact (Microcode.perform_ensures_effect hloads _ _).of_completes hperform

/-- The steps of two forms end alike on buses that match. The return address of a call must be stored
    where the device is free. -/
theorem TwoForms.result {alike : δ → δ → Prop} {free : δ → Prop} (h : TwoForms machine machine' i i')
    (hlaw : Device.Interchangeable alike free (machine.core.get .ip + i.length)
      (machine.core.get .ip + i'.length)) (hbus : machine.bus.Matches alike machine'.bus)
    (hfree : ∀ a, i.Excused machine.core a → machine.bus.Free free a) :
    machine.step.1 = machine'.step.1 := by
  obtain ⟨hm, bus, hfetch⟩ := instruction?_eq_some_iff.mp h.literal
  obtain ⟨hm', bus', hfetch'⟩ := instruction?_eq_some_iff.mp h.register
  obtain ⟨hloads, hloads'⟩ := h.forms.loads
  -- the buses still match when the two forms have been fetched
  have hbus₁ : bus.Matches alike machine'.bus := by
    have heval := hbus.eval hlaw (Microcode.fetchInstruction_readsOnly machine.core)
    rwa [hfetch] at heval
  have hbus₂ : bus.Matches alike bus' := by
    have heval := (hbus₁.symm hlaw).eval hlaw (Microcode.fetchInstruction_readsOnly machine'.core)
    rw [hfetch'] at heval
    exact heval.symm hlaw
  have hfree' : ∀ a, i.Excused machine.core a → bus.Free free a := by
    intro a ha
    have heval := (hfree a ha).eval hlaw (Microcode.fetchInstruction machine.core)
    rwa [hfetch] at heval
  have hplans := hbus₂.ofPlan hlaw h.forms.plan hfree'
  rw [result_of_plan hm hfetch hloads, result_of_plan hm' hfetch' hloads', ← h.core, hplans,
    h.forms.not_halt.1, h.forms.not_halt.2]

theorem TwoForms.sameEffect {b : Bool} (h : TwoForms machine machine' i i')
    (hstep : machine.step.1 = .ok b) (hstep' : machine'.step.1 = .ok b) :
    SameEffect machine machine' i i' := by
  obtain ⟨j, bus, hj, hfetch, hfootprint⟩ :=
    footprint_of_step (instruction?_eq_some_iff.mp h.literal).1 hstep
  obtain rfl : i = j := Option.some.inj (h.literal.symm.trans hj)
  obtain ⟨j, bus', hj, hfetch', hfootprint'⟩ :=
    footprint_of_step (instruction?_eq_some_iff.mp h.register).1 hstep'
  obtain rfl : i' = j := Option.some.inj (h.register.symm.trans hj)
  obtain ⟨hloads, hloads'⟩ := h.forms.loads
  obtain ⟨hret, hret'⟩ := h.forms.ne_ret
  obtain ⟨hdestination, hdestination'⟩ := h.forms.destination?_ne
  obtain ⟨hregisters, hframeSize⟩ := h.forms.effect (machine.core.get .ip)
  have htarget := h.forms.target? (machine.core.get .ip)
  have hcore := core_of_loads h.literal hloads hstep
  have hcore' := core_of_loads h.register hloads' hstep'
  have hwrites := hfootprint.writes
  have hwrites' := hfootprint'.writes
  have hredirected' := hfootprint'.redirected
  have honwards' := hfootprint'.onwards hret' hdestination'
  rw [← h.core] at hcore' hwrites' hredirected' honwards'
  exact {
    registers := fun r hr => by rw [hcore, hcore', hregisters r hr]
    frameSize := by rw [hcore, hcore', hframeSize]
    writes := fun hcall => by rw [hwrites, hwrites', h.forms.stores hcall]
    frame := by
      rintro ⟨operand, rfl⟩
      obtain ⟨operand', rfl⟩ := h.forms.exists_call
      rw [hwrites, hwrites', Instruction.stores_call, Instruction.stores_call, List.map_append,
        List.map_append]
      exact ⟨_, _, rfl, rfl⟩
    redirected := fun target ht =>
      ⟨hfootprint.redirected target ht, hredirected' target (htarget.symm.trans ht)⟩
    onwards := fun ht =>
      ⟨hfootprint.onwards hret hdestination ht, honwards' (htarget.symm.trans ht)⟩ }

end Machine

/-! ## Memories and screens -/

/-- Memories of the same size, and screens with the same sink or with sinks that do not fail. -/
inductive AlikePeripherals (steady : σ → Prop) : Ram ⊕ Screen σ → Ram ⊕ Screen σ → Prop
  | memories {ram ram' : Ram} (h : ram.size = ram'.size) :
      AlikePeripherals steady (.inl ram) (.inl ram')
  | sameScreen (screen : Screen σ) : AlikePeripherals steady (.inr screen) (.inr screen)
  | screens {screen screen' : Screen σ} (h : steady screen.sink) (h' : steady screen'.sink) :
      AlikePeripherals steady (.inr screen) (.inr screen')

/-- A device that takes one word as well as another: a memory, or a screen with a sink that does not
    fail. -/
def TakesAny (steady : σ → Prop) : Ram ⊕ Screen σ → Prop
  | .inl _ => True
  | .inr screen => steady screen.sink

/-- How an access to a memory ends depends on its size and on how many bytes are accessed. -/
theorem Ram.ending_congr {ram ram' : Ram} {request request' : Request} (hsize : ram.size = ram'.size)
    (hwidth : request.width = request'.width) (a : Word) :
    Device.ending ram a request = Device.ending ram' a request' := by
  by_cases h : a.toNat + request.width ≤ ram.size
  · rw [ending_of_le h, ending_of_le (by omega)]
  · rw [Device.ending, Device.ending, answer_of_not_le h, answer_of_not_le (by omega), hsize]
    rfl

section

variable [Sink σ] {steady : σ → Prop}

theorem alike_memories {ram ram' : Ram} {request request' : Request} (hsize : ram.size = ram'.size)
    (hwidth : request.width = request'.width) (a : Word) :
    Device.ending (Sum.inl ram : Ram ⊕ Screen σ) a request =
        Device.ending (Sum.inl ram' : Ram ⊕ Screen σ) a request' ∧
      AlikePeripherals steady (Device.answer (Sum.inl ram : Ram ⊕ Screen σ) a request).2
        (Device.answer (Sum.inl ram' : Ram ⊕ Screen σ) a request').2 := by
  refine ⟨Ram.ending_congr hsize hwidth a, .memories ?_⟩
  exact (ram.size_answer a request).trans (hsize.trans (ram'.size_answer a request').symm)

theorem alike_screens (hsteady : Sink.Steady steady) {screen screen' : Screen σ}
    (h : steady screen.sink) (h' : steady screen'.sink) (request request' : Request) (a : Word) :
    Device.ending (Sum.inr screen : Ram ⊕ Screen σ) a request =
        Device.ending (Sum.inr screen' : Ram ⊕ Screen σ) a request' ∧
      AlikePeripherals steady (Device.answer (Sum.inr screen : Ram ⊕ Screen σ) a request).2
        (Device.answer (Sum.inr screen' : Ram ⊕ Screen σ) a request').2 := by
  obtain ⟨reply, sink, hanswer, hsink⟩ := hsteady.screen h a request
  obtain ⟨reply', sink', hanswer', hsink'⟩ := hsteady.screen h' a request'
  constructor
  · change (Device.answer screen a request).1.map _ = (Device.answer screen' a request').1.map _
    rw [hanswer, hanswer']
    rfl
  · change AlikePeripherals steady (.inr (Device.answer screen a request).2)
      (.inr (Device.answer screen' a request').2)
    rw [hanswer, hanswer']
    exact .screens hsink hsink'

theorem interchangeable_peripherals (hsteady : Sink.Steady steady) (word word' : Word) :
    Device.Interchangeable (AlikePeripherals steady) (TakesAny steady) word word' where
  symm h := by
    cases h with
    | memories h => exact .memories h.symm
    | sameScreen screen => exact .sameScreen screen
    | screens h h' => exact .screens h' h
  same a request h := by
    cases h with
    | memories h => exact alike_memories h rfl a
    | sameScreen screen => exact ⟨rfl, .sameScreen _⟩
    | screens h h' => exact alike_screens hsteady h h' request request a
  read {device device'} a request h hread := by
    have hsame : (Device.answer device a request).2 = device := by
      cases device with
      | inl ram => exact congrArg Sum.inl (Ram.answer_read hread)
      | inr screen => cases request <;> first | rfl | cases hread
    rwa [hsame]
  any a h hfree := by
    have hwidth : (Request.writeWord word).width = (Request.writeWord word').width := rfl
    cases h with
    | memories h => exact alike_memories h hwidth a
    | sameScreen screen =>
      have hsink : steady screen.sink := hfree
      exact alike_screens hsteady hsink hsink _ _ a
    | screens h h' => exact alike_screens hsteady h h' _ _ a
  free {device} a request h := by
    cases device with
    | inl ram => trivial
    | inr screen =>
      obtain ⟨reply, sink, hanswer, hsink⟩ := hsteady.screen h a request
      change steady (Device.answer screen a request).2.sink
      rwa [hanswer]

end

namespace Machine

/-- Two forms of an instruction agree. If both steps succeed they have the same effect, whatever the
    devices are. They end alike on buses that match, if the return address of a call is stored where the
    device is free. Memories of the same size and equal screens match, and the free ones among them are
    the memories and the screens that do not fail. -/
theorem forms_agree :
    (∀ {δ : Type} [Device δ] {machine machine' : Machine δ} {i i' : Instruction} {b : Bool},
      TwoForms machine machine' i i' → machine.step.1 = .ok b → machine'.step.1 = .ok b →
        SameEffect machine machine' i i') ∧
    (∀ {δ : Type} [Device δ] {alike : δ → δ → Prop} {free : δ → Prop} {machine machine' : Machine δ}
      {i i' : Instruction}, TwoForms machine machine' i i' →
        Device.Interchangeable alike free (machine.core.get .ip + i.length)
          (machine.core.get .ip + i'.length) →
        machine.bus.Matches alike machine'.bus →
        (∀ a, i.Excused machine.core a → machine.bus.Free free a) →
        machine.step.1 = machine'.step.1) ∧
    ∀ {σ : Type} [Sink σ] {steady : σ → Prop}, Sink.Steady steady → ∀ word word',
      Device.Interchangeable (AlikePeripherals steady) (TakesAny steady) word word' :=
  ⟨fun h hstep hstep' => h.sameEffect hstep hstep',
    fun h hlaw hbus hfree => h.result hlaw hbus hfree,
    fun hsteady word word' => interchangeable_peripherals hsteady word word'⟩

/-- A machine that is about to call the subroutine at zero from `0x7d`, with a given device for its
    stack. -/
def beforeCall (call : Array Byte) (stack : Ram ⊕ Screen Buffer) : Machine (Ram ⊕ Screen Buffer) :=
  ⟨Core.initial.set .ip 0x7d,
    (Bus.empty.map (.inl ⟨call⟩) 0x7d 0x7f true).map stack 0xff00 0xffff true, false, #[]⟩

/-- The stack of a machine that is about to call, as a memory. -/
def memoryStack : Ram ⊕ Screen Buffer := .inl (.zeroed 0x100)

theorem agree_on_memory :
    (beforeCall #[0x5e, 0, 0] memoryStack).step.1 = (beforeCall #[0x5f, 2, 0] memoryStack).step.1 ∧
      SameEffect (beforeCall #[0x5e, 0, 0] memoryStack) (beforeCall #[0x5f, 2, 0] memoryStack)
        (.call (.literal 0)) (.call (.register .r1)) := by
  have hforms : TwoForms (beforeCall #[0x5e, 0, 0] memoryStack) (beforeCall #[0x5f, 2, 0] memoryStack)
      (.call (.literal 0)) (.call (.register .r1)) :=
    ⟨rfl, by decide +kernel, by decide +kernel, Instruction.Forms.call (r := .r1) (by decide)⟩
  have hsame : (beforeCall #[0x5e, 0, 0] memoryStack).step.1 =
      (beforeCall #[0x5f, 2, 0] memoryStack).step.1 := by
    refine forms_agree.2.1 hforms (forms_agree.2.2 Buffer.steady _ _) ?_ ?_
    · exact .cons ⟨rfl, .memories rfl⟩ (.cons ⟨rfl, .memories rfl⟩ .nil)
    · rintro a ⟨-, rfl⟩ region howner
      cases howner
      trivial
  have hok : (beforeCall #[0x5e, 0, 0] memoryStack).step.1 = .ok false := by decide +kernel
  exact ⟨hsame, forms_agree.1 hforms hok (hsame.symm.trans hok)⟩

/-- The return address of the literal form is drawn as one byte more than that of the register form,
    and the screen has no room for it. -/
theorem call_refused :
    let stack : Ram ⊕ Screen Buffer := .inr ⟨⟨#[], some 88, .fail "sink full", none⟩⟩
    TwoForms (beforeCall #[0x5e, 0, 0] stack) (beforeCall #[0x5f, 2, 0] stack) (.call (.literal 0))
        (.call (.register .r1)) ∧
      (beforeCall #[0x5e, 0, 0] stack).bus.Matches (AlikePeripherals fun _ => False)
        (beforeCall #[0x5f, 2, 0] stack).bus ∧
      (beforeCall #[0x5e, 0, 0] stack).step.1 = .error (.deviceFailure "sink full") ∧
      (beforeCall #[0x5f, 2, 0] stack).step.1 = .ok false := by
  refine ⟨⟨rfl, by decide +kernel, by decide +kernel, Instruction.Forms.call (r := .r1) (by decide)⟩,
    .cons ⟨rfl, .sameScreen _⟩ (.cons ⟨rfl, .memories rfl⟩ .nil), ?_⟩
  decide +kernel

end Machine

end WordMachine
