import WordMachine.Proofs.WriteOrder

/-!
# What a device gets

A bus hands each access to the region that owns the address, and which region that is does not change
with the accesses. The device of a region is therefore, at any time, what the accesses to its own
addresses have made of it, one after the other, however they are mixed with accesses to other devices
and whether they succeed or not.

* `mem_eval`: the device of a region after a program.
* `eval_delivered`: a program that succeeds has succeeded with every device.
* `mem_after`: the device of a region after a number of steps.
* `exists_reads_of_step`: a step that succeeds makes the writes of its instruction.
-/

namespace WordMachine

variable {α δ : Type}

/-! ## Accesses one after the other -/

section

variable {ε : Type} [Device δ] [Device ε]

omit [Device ε] in
theorem Device.after_append (device : δ) (first second : List (Word × Request)) :
    Device.after device (first ++ second) = Device.after (Device.after device first) second :=
  List.foldl_append

omit [Device ε] in
/-- A plan goes on with the device that the first part of it has left, if that succeeds. -/
theorem BusProgram.eval_ofPlan_append {first : List (Word × Request)} {device : δ}
    (h : ((ofPlan first).eval device).1 = .ok ()) (second : List (Word × Request)) :
    (ofPlan (first ++ second)).eval device = (ofPlan second).eval (Device.after device first) := by
  induction first generalizing device with
  | nil => rfl
  | cons access first ih =>
    rw [ofPlan, eval] at h
    rw [List.cons_append, ofPlan, eval]
    change _ = (ofPlan second).eval (Device.after (Device.answer device access.1 access.2).2 first)
    generalize Device.answer device access.1 access.2 = outcome at h
    obtain ⟨_ | reply, device₁⟩ := outcome
    · cases h
    · exact ih h

theorem Device.after_inr (device : ε) (accesses : List (Word × Request)) :
    Device.after (.inr device : δ ⊕ ε) accesses = .inr (Device.after device accesses) := by
  induction accesses generalizing device with
  | nil => rfl
  | cons access accesses ih => exact ih (Device.answer device access.1 access.2).2

theorem BusProgram.eval_inr (p : BusProgram α) (device : ε) :
    p.eval (.inr device : δ ⊕ ε) = ((p.eval device).1, .inr (p.eval device).2) := by
  induction p generalizing device with
  | done result => rfl
  | fault f => rfl
  | access address request next ih =>
    have hanswer : Device.answer (.inr device : δ ⊕ ε) address request =
      ((Device.answer device address request).1, .inr (Device.answer device address request).2) := rfl
    rw [eval, eval, hanswer]
    generalize Device.answer device address request = outcome
    obtain ⟨f | reply, device'⟩ := outcome
    · rfl
    · exact ih reply device'
  | log entry next ih => exact ih device

end

namespace Bus

/-! ## Accesses that a region gets -/

/-- The address under which the region of the given number sees an address that belongs to it. -/
def localAddress? (bus : Bus δ) (id : Nat) (a : Word) : Option Word :=
  (bus.owner a).bind fun region => if region.id = id then some (region.localAddress a) else none

/-- The accesses that the region of the given number gets, at its own addresses. -/
def delivered (bus : Bus δ) (id : Nat) (accesses : List (Word × Request)) : List (Word × Request) :=
  accesses.filterMap fun access => (bus.localAddress? id access.1).map (·, access.2)

theorem delivered_append (bus : Bus δ) (id : Nat) (first second : List (Word × Request)) :
    bus.delivered id (first ++ second) = bus.delivered id first ++ bus.delivered id second :=
  List.filterMap_append

theorem delivered_cons (bus : Bus δ) (id : Nat) (a : Word) (request : Request)
    (accesses : List (Word × Request)) :
    bus.delivered id ((a, request) :: accesses) =
      bus.delivered id [(a, request)] ++ bus.delivered id accesses :=
  bus.delivered_append id [(a, request)] accesses

theorem delivered_of_owner {bus : Bus δ} {a : Word} {region : Region δ}
    (h : bus.owner a = some region) (request : Request) :
    bus.delivered region.id [(a, request)] = [(region.localAddress a, request)] := by
  simp [delivered, localAddress?, h]

theorem delivered_of_ne {bus : Bus δ} {id : Nat} {a : Word}
    (h : ∀ region, bus.owner a = some region → region.id ≠ id) (request : Request) :
    bus.delivered id [(a, request)] = [] := by
  cases howner : bus.owner a with
  | none => simp [delivered, localAddress?, howner]
  | some region => simp [delivered, localAddress?, howner, h region howner]

/-- Two buses with the same owners hand accesses to the same regions. -/
theorem delivered_congr {bus bus' : Bus δ}
    (h : ∀ a, (bus'.owner a).map (·.withDevice ()) = (bus.owner a).map (·.withDevice ())) (id : Nat)
    (accesses : List (Word × Request)) : bus'.delivered id accesses = bus.delivered id accesses := by
  have hlocal : ∀ bus : Bus δ, ∀ a, bus.localAddress? id a =
      ((bus.owner a).map (·.withDevice ())).bind fun region =>
        if region.id = id then some (region.localAddress a) else none := by
    intro bus a
    rw [localAddress?, Option.bind_map]
    rfl
  rw [delivered, delivered]
  simp only [hlocal, h]

section

variable [Device δ] {bus : Bus δ} {region : Region δ}

theorem Ordered.answer (h : bus.Ordered) (a : Word) (request : Request) :
    (bus.answer a request).2.Ordered := by
  cases howner : bus.owner a with
  | none =>
    rw [answer_of_owner_eq_none howner]
    exact h
  | some owner =>
    rw [answer_of_owns h ((owns_iff h).mp howner)]
    have hid : ∀ (r : Region δ) device,
        (if r.id = owner.id then r.withDevice device else r).id = r.id := by
      intro r device
      split <;> rfl
    constructor
    case decreasing =>
      refine List.pairwise_map.mpr ?_
      simp only [hid]
      exact h.decreasing
    case id_lt =>
      refine List.forall_mem_map.mpr ?_
      simp only [hid]
      exact h.id_lt

/-- An access reaches the device of its owner and no other. -/
theorem mem_answer (h : bus.Ordered) (hregion : region ∈ bus.regions) (a : Word) (request : Request) :
    region.withDevice (Device.after region.device (bus.delivered region.id [(a, request)])) ∈
      (bus.answer a request).2.regions := by
  cases howner : bus.owner a with
  | none =>
    rw [answer_of_owner_eq_none howner, delivered_of_ne (by simp [howner])]
    exact hregion
  | some owner =>
    have howns := (owns_iff h).mp howner
    rw [answer_of_owns h howns]
    refine List.mem_map.mpr ⟨region, hregion, ?_⟩
    by_cases hid : region.id = owner.id
    · obtain rfl := h.decreasing.eq_of_id_eq hregion howns.mem hid
      rw [if_pos rfl, delivered_of_owner howner]
      rfl
    · rw [if_neg hid, delivered_of_ne (by simpa [howner] using Ne.symm hid)]
      rfl

theorem delivered_answer (bus : Bus δ) (a : Word) (request : Request) (id : Nat)
    (accesses : List (Word × Request)) :
    (bus.answer a request).2.delivered id accesses = bus.delivered id accesses :=
  delivered_congr (fun b => owner_answer bus a b request) id accesses

/-- The device of a region after a program. -/
theorem mem_eval (h : bus.Ordered) (hregion : region ∈ bus.regions) (p : BusProgram α) :
    region.withDevice (Device.after region.device (bus.delivered region.id (p.accesses bus))) ∈
      (p.eval bus).2.regions := by
  induction p generalizing bus region with
  | done result => exact hregion
  | fault f => exact hregion
  | access a request next ih =>
    have hnext := h.answer a request
    have hmem := mem_answer h hregion a request
    have hsame := delivered_answer bus a request region.id
    rw [BusProgram.eval, BusProgram.accesses, delivered_cons, Device.after_append,
      Bus.device_answer]
    generalize bus.answer a request = outcome at hnext hmem hsame
    obtain ⟨f | reply, bus₁⟩ := outcome
    · exact hmem
    · have hrest := ih reply hnext hmem
      rw [Region.id_withDevice, Region.device_withDevice, hsame] at hrest
      exact hrest
  | log entry next ih => exact ih h hregion

theorem Ordered.eval (h : bus.Ordered) (p : BusProgram α) : (p.eval bus).2.Ordered := by
  induction p generalizing bus with
  | done result => exact h
  | fault f => exact h
  | access a request next ih =>
    have hnext : (Device.answer bus a request).2.Ordered := h.answer a request
    rw [BusProgram.eval]
    generalize Device.answer bus a request = outcome at hnext
    obtain ⟨f | reply, bus₁⟩ := outcome
    · exact hnext
    · exact ih reply hnext
  | log entry next ih => exact ih h

/-- An access that succeeds has succeeded with the device that got it. -/
theorem answer_delivered (h : bus.Ordered) (hregion : region ∈ bus.regions) {a : Word}
    {request : Request} {reply : request.Reply} (hok : (bus.answer a request).1 = .ok reply) :
    ((BusProgram.ofPlan (bus.delivered region.id [(a, request)])).eval region.device).1 =
      .ok () := by
  by_cases howner : bus.owner a = some region
  · rw [answer_of_owner_eq_some howner] at hok
    rw [delivered_of_owner howner, BusProgram.ofPlan, BusProgram.eval]
    generalize Device.answer region.device (region.localAddress a) request = outcome at hok
    obtain ⟨_ | _, device⟩ := outcome
    · cases hok
    · rfl
  · have hne : ∀ owner, bus.owner a = some owner → owner.id ≠ region.id := by
      rintro owner hown hid
      rw [h.decreasing.eq_of_id_eq ((owns_iff h).mp hown).mem hregion hid] at hown
      exact howner hown
    rw [delivered_of_ne hne]
    rfl

/-- A program that succeeds has succeeded with every device. -/
theorem eval_delivered (h : bus.Ordered) (hregion : region ∈ bus.regions) {p : BusProgram α}
    {result : α} (hok : (p.eval bus).1 = .ok result) :
    ((BusProgram.ofPlan (bus.delivered region.id (p.accesses bus))).eval region.device).1 =
      .ok () := by
  induction p generalizing bus region with
  | done result => rfl
  | fault f => cases hok
  | access a request next ih =>
    have hfirst := fun reply => @answer_delivered _ _ _ _ h hregion a request reply
    have hnext := h.answer a request
    have hmem := mem_answer h hregion a request
    have hsame := delivered_answer bus a request region.id
    rw [BusProgram.eval, Bus.device_answer] at hok
    rw [BusProgram.accesses, Bus.device_answer, delivered_cons]
    generalize bus.answer a request = outcome at hok hfirst hnext hmem hsame
    obtain ⟨f | reply, bus₁⟩ := outcome
    · cases hok
    · rw [BusProgram.eval_ofPlan_append (hfirst reply rfl), ← hsame]
      exact ih reply hnext hmem hok
  | log entry next ih => exact ih h hregion hok

end

end Bus

/-! ## Steps -/

namespace Machine

variable [Device δ] {machine : Machine δ} {region : Region δ}

/-- The accesses of the first `n` steps that the region of the given number gets. -/
def delivered (machine : Machine δ) (id n : Nat) : List (Word × Request) :=
  (List.range n).flatMap fun k => machine.bus.delivered id (machine.after k).accesses

theorem delivered_succ (machine : Machine δ) (id n : Nat) :
    machine.delivered id (n + 1) =
      machine.delivered id n ++ machine.bus.delivered id (machine.after n).accesses := by
  rw [delivered, List.range_succ, List.flatMap_append, List.flatMap_singleton]
  rfl

theorem owner_after (machine : Machine δ) (n : Nat) (a : Word) :
    ((machine.after n).bus.owner a).map (·.withDevice ()) =
      (machine.bus.owner a).map (·.withDevice ()) := by
  induction n with
  | zero => rfl
  | succ n ih => rw [after_succ, owner_step, ih]

theorem accesses_of_not_halted (hm : machine.halted = false) :
    machine.accesses = (Microcode.instruction machine.core).accesses machine.bus := by
  rw [accesses, hm, if_neg (by decide)]

theorem ordered_step (h : machine.bus.Ordered) : machine.step.2.bus.Ordered := by
  cases hm : machine.halted with
  | true =>
    rw [step_of_halted hm]
    exact h
  | false =>
    rw [bus_step hm]
    exact h.eval _

/-- The device of a region after a step. -/
theorem mem_step (h : machine.bus.Ordered) (hregion : region ∈ machine.bus.regions) :
    region.withDevice (Device.after region.device
      (machine.bus.delivered region.id machine.accesses)) ∈ machine.step.2.bus.regions := by
  cases hm : machine.halted with
  | true =>
    rw [step_of_halted hm, accesses, if_pos hm]
    exact hregion
  | false =>
    rw [bus_step hm, accesses_of_not_halted hm]
    exact Bus.mem_eval h hregion _

/-- The device of a region after a number of steps. -/
theorem mem_after (h : machine.bus.Ordered) (hregion : region ∈ machine.bus.regions) (n : Nat) :
    (machine.after n).bus.Ordered ∧
      region.withDevice (Device.after region.device (machine.delivered region.id n)) ∈
        (machine.after n).bus.regions := by
  induction n with
  | zero => exact ⟨h, hregion⟩
  | succ n ih =>
    obtain ⟨hordered, hmem⟩ := ih
    have hnext := mem_step hordered hmem
    rw [Region.id_withDevice, Region.device_withDevice, ← Device.after_append,
      Bus.delivered_congr (machine.owner_after n), ← delivered_succ] at hnext
    exact ⟨ordered_step hordered, hnext⟩

/-- A step that succeeds has succeeded with every device. -/
theorem eval_delivered_of_step (h : machine.bus.Ordered) (hregion : region ∈ machine.bus.regions)
    {b : Bool} (hok : machine.step.1 = .ok b) :
    ((BusProgram.ofPlan (machine.bus.delivered region.id machine.accesses)).eval region.device).1 =
      .ok () := by
  cases hm : machine.halted with
  | true =>
    rw [accesses, if_pos hm]
    rfl
  | false =>
    rw [accesses_of_not_halted hm]
    rw [result_step hm] at hok
    cases hresult : ((Microcode.instruction machine.core).eval machine.bus).1 with
    | ok result => exact Bus.eval_delivered h hregion hresult
    | error fault =>
      rw [hresult] at hok
      cases hok

/-- A step that succeeds reads, and then makes the writes of its instruction. -/
theorem exists_reads_of_step {i : Instruction} (hi : machine.instruction? = some i) {b : Bool}
    (hok : machine.step.1 = .ok b) :
    ∃ reads, (∀ access ∈ reads, access.2.isWrite = false) ∧
      machine.accesses = reads ++ i.plan (machine.core.advanced i.length) := by
  obtain ⟨bus, fetched, hfetched, htrace, hstep⟩ := split_of_instruction?_eq_some hi
  have hm := (instruction?_eq_some_iff.mp hi).1
  have haccesses : machine.accesses = machine.trace.map fun e => (e.address, e.request) := by
    rw [accesses_of_not_halted hm, trace_of_not_halted hm, BusProgram.map_trace]
  have hreads : ∀ access ∈ fetched.map fun e => (e.address, e.request), access.2.isWrite = false :=
    List.forall_mem_map.mpr fun e he => Opcode.isWrite_of_mem_fetches (hfetched.mem_plan he)
  rw [haccesses, htrace, List.map_append]
  cases hloads : i.loads with
  | false =>
    have hfollows := (Microcode.perform_makes hloads (machine.core.get .ip)
      (machine.core.advanced i.length)).follows bus
    rw [hok] at hstep
    generalize (Microcode.perform _ _ _).eval bus = outcome at hstep hfollows
    obtain ⟨_ | _, bus'⟩ := outcome
    · cases hstep
    · refine ⟨_, hreads, ?_⟩
      rw [hfollows.eq_map, List.map_map]
      exact congrArg _ (List.map_id _)
  | true =>
    have hwrites : i.writes = false ∧ i.plan (machine.core.advanced i.length) = [] := by
      cases i <;> first | exact ⟨rfl, rfl⟩ | cases hloads
    rw [hwrites.2]
    refine ⟨_, fun access haccess => ?_, (List.append_nil _).symm⟩
    rcases List.mem_append.mp haccess with hmem | hmem
    · exact hreads access hmem
    · obtain ⟨event, hevent, rfl⟩ := List.mem_map.mp hmem
      exact (Microcode.perform_readsOnly hwrites.1 _ _).of_mem_trace hevent

end Machine

end WordMachine
