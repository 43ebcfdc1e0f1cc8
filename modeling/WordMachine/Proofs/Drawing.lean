import WordMachine.Proofs.Faults
import WordMachine.Proofs.Rollback

/-!
# What a run draws

The machine that the command line builds has memory everywhere, and perhaps a screen over a page of it
that sends all it draws to a buffer. The buffer then holds the drawings of the words that were written
to the page, one after the other, and nothing else: reads and single bytes draw nothing, and an
instruction that fails has written no word.

* `Buffer.send_eq`: pieces that are sent to a buffer without a limit.
* `exists_eval_covered`: what a program adds to the buffer of the screen, whatever is in it.
* `exists_bus_after`: what a number of steps add to it.
* `backed_after`, `bus_of_backed`: the bus stays what it is, and a step that fails does not change it.
-/

namespace WordMachine

variable {α : Type}

/-! ## Buffers -/

namespace Buffer

/-- A buffer takes everything, and flushing it does not fail. -/
def Open (buffer : Buffer) : Prop := buffer.room = none ∧ buffer.flushFailure = none

/-- A buffer that has taken more bytes. -/
def extended (buffer : Buffer) (bytes : List Byte) : Buffer :=
  { buffer with written := buffer.written ++ bytes }

variable {buffer : Buffer}

theorem Open.extended (h : buffer.Open) (bytes : List Byte) : (buffer.extended bytes).Open := h

theorem extended_nil (buffer : Buffer) : buffer.extended [] = buffer := by
  simp [Buffer.extended]

theorem extended_extended (buffer : Buffer) (first second : List Byte) :
    (buffer.extended first).extended second = buffer.extended (first ++ second) := by
  have hwritten : buffer.written ++ first ++ second = buffer.written ++ (first ++ second) :=
    Array.ext' (by simp)
  rw [Buffer.extended, Buffer.extended, hwritten]
  rfl

/-- What has been sent to an open buffer is in it. -/
theorem accepts (h : buffer.Open) : Sink.Accepts fun bytes sink => sink = buffer.extended bytes where
  write := by
    obtain ⟨written, room, whenFull, flushFailure⟩ := buffer
    obtain ⟨rfl, rfl⟩ := h
    rintro bytes _ first rest rfl
    refine ⟨rest.length, _, rfl, ?_⟩
    rw [List.take_succ_cons, List.take_length, ← extended_extended]
    rfl
  flush := by
    obtain ⟨written, room, whenFull, flushFailure⟩ := buffer
    obtain ⟨rfl, rfl⟩ := h
    rintro bytes _ rfl
    exact ⟨_, rfl, rfl⟩

/-- Pieces that are sent to an open buffer are in it, one behind the other. -/
theorem send_eq (h : buffer.Open) (pieces : List (List Byte)) :
    Screen.send buffer pieces = (.ok (), buffer.extended pieces.flatten) := by
  have hempty : buffer = buffer.extended [] := (extended_nil buffer).symm
  obtain ⟨sink, hsend, hsink⟩ := (accepts h).send hempty pieces
  rw [hsend, hsink, List.nil_append]

end Buffer

/-! ## Programs -/

/-- What an access draws: a word that is written to the page of the screen, at the cell that its
    address picks. -/
def Event.drawing (event : Event) : List Byte :=
  match event.request with
  | .writeWord value =>
    if Bus.OnScreen event.address then
      ((Screen.rendering (event.address - 0x3000) value).map Screen.encode).flatten
    else []
  | _ => []

namespace Bus

variable {ram : Ram} {buffer : Buffer}

/-- An access under a screen changes the memory, or adds what it draws to the buffer. How it ends does
    not depend on what is in the buffer. -/
theorem exists_answer_covered (ram : Ram) (a : Word) (request : Request) :
    ∃ reply ram', ∀ (buffer : Buffer), buffer.Open → ∀ ending,
      (covered ram (⟨buffer⟩ : Screen Buffer)).answer a request =
        (reply, covered ram' ⟨buffer.extended (Event.drawing ⟨a, request, ending⟩)⟩) := by
  by_cases ha : OnScreen a
  · cases request with
    | readByte | readWord =>
      refine ⟨.ok 0, ram, fun buffer _ ending => ?_⟩
      rw [covered_answer_of_onScreen ha, Event.drawing, Buffer.extended_nil]
      rfl
    | writeByte value =>
      refine ⟨.ok (), ram, fun buffer _ ending => ?_⟩
      rw [covered_answer_of_onScreen ha, Event.drawing, Buffer.extended_nil]
      rfl
    | writeWord value =>
      refine ⟨.ok (), ram, fun buffer hopen ending => ?_⟩
      have hwrite : Device.answer (⟨buffer⟩ : Screen Buffer) (a - 0x3000) (.writeWord value) =
          (.ok (), ⟨buffer.extended
            ((Screen.rendering (a - 0x3000) value).map Screen.encode).flatten⟩) := by
        change Screen.writeWord ⟨buffer⟩ (a - 0x3000) value = _
        rw [Screen.writeWord, Buffer.send_eq hopen]
      rw [covered_answer_of_onScreen ha, hwrite, Event.drawing]
      simp only
      rw [if_pos ha]
  · refine ⟨(Device.answer ram a request).1, (Device.answer ram a request).2,
      fun buffer _ ending => ?_⟩
    rw [covered_answer ha, Event.drawing]
    cases request with
    | writeWord value =>
      simp only
      rw [if_neg ha, Buffer.extended_nil]
    | _ => rw [Buffer.extended_nil]

/-- A program under a screen adds what its accesses draw to the buffer. What it does otherwise does not
    depend on what is in the buffer. -/
theorem exists_eval_covered (p : BusProgram α) (ram : Ram) :
    ∃ result ram' trace, ∀ (buffer : Buffer), buffer.Open →
      p.eval (covered ram (⟨buffer⟩ : Screen Buffer)) =
          (result, covered ram' ⟨buffer.extended (trace.flatMap Event.drawing)⟩) ∧
        p.trace (covered ram (⟨buffer⟩ : Screen Buffer)) = trace := by
  induction p generalizing ram with
  | done result =>
    refine ⟨.ok result, ram, [], fun buffer _ => ⟨?_, rfl⟩⟩
    rw [List.flatMap_nil, Buffer.extended_nil]
    rfl
  | fault f =>
    refine ⟨.error f, ram, [], fun buffer _ => ⟨?_, rfl⟩⟩
    rw [List.flatMap_nil, Buffer.extended_nil]
    rfl
  | access address request next ih =>
    obtain ⟨f | reply, ram₁, hanswer⟩ := exists_answer_covered ram address request
    · refine ⟨.error f, ram₁, [⟨address, request, .error f⟩], fun buffer hopen => ?_⟩
      have hfail : Device.answer (covered ram (⟨buffer⟩ : Screen Buffer)) address request = _ :=
        hanswer buffer hopen (.error f)
      rw [BusProgram.eval, BusProgram.trace, hfail, List.flatMap_singleton]
      exact ⟨rfl, rfl⟩
    · obtain ⟨result, ram', trace, hnext⟩ := ih reply ram₁
      refine ⟨result, ram', ⟨address, request, .ok ()⟩ :: trace, fun buffer hopen => ?_⟩
      have hok : Device.answer (covered ram (⟨buffer⟩ : Screen Buffer)) address request = _ :=
        hanswer buffer hopen (.ok ())
      obtain ⟨heval, htrace⟩ := hnext _ (hopen.extended (Event.drawing ⟨address, request, .ok ()⟩))
      rw [BusProgram.eval, BusProgram.trace, hok]
      simp only
      rw [heval, htrace, Buffer.extended_extended, List.flatMap_cons]
      exact ⟨rfl, rfl⟩
  | log entry next ih => exact ih ram

/-- A program on a memory alone leaves a memory alone. -/
theorem exists_eval_alone (p : BusProgram α) :
    ∃ ram', (p.eval (⟨[whole ram], 1⟩ : Bus (Ram ⊕ Screen Buffer))).2 = ⟨[whole ram'], 1⟩ := by
  induction p generalizing ram with
  | done result => exact ⟨ram, rfl⟩
  | fault f => exact ⟨ram, rfl⟩
  | access address request next ih =>
    have hanswer : Device.answer (⟨[whole ram], 1⟩ : Bus (Ram ⊕ Screen Buffer)) address request = _ :=
      alone_answer address request
    rw [BusProgram.eval, hanswer]
    generalize Device.answer ram address request = outcome
    obtain ⟨f | reply, ram'⟩ := outcome
    · exact ⟨ram', rfl⟩
    · exact ih reply
  | log entry next ih => exact ih

/-! ## Buses that stay what they are -/

section

variable {σ : Type} [Sink σ] {steady : σ → Prop} {bus : Bus (Ram ⊕ Screen σ)}

theorem Backed.eval (hsteady : Sink.Steady steady) (h : Backed steady bus) (p : BusProgram α) :
    Backed steady (p.eval bus).2 := by
  induction p generalizing bus with
  | done result => exact h
  | fault f => exact h
  | access address request next ih =>
    have hanswer : Backed steady (Device.answer bus address request).2 :=
      (h.answer hsteady address request).2
    rw [BusProgram.eval]
    generalize Device.answer bus address request = outcome at hanswer
    obtain ⟨f | reply, bus'⟩ := outcome
    · exact hanswer
    · exact ih reply hanswer
  | log entry next ih => exact ih h

/-- Reads change nothing, and accesses that fail do not either. -/
theorem Backed.onlyWritesChange (hsteady : Sink.Steady steady) (h : Backed steady bus) :
    Device.OnlyWritesChange bus := by
  have hram : ∀ (ram : Ram) a request,
      (request.isWrite = false ∨ ∃ f, (Device.answer ram a request).1 = .error f) →
        (Device.answer ram a request).2 = ram := by
    rintro ram a request (hread | ⟨f, herror⟩)
    · exact Ram.answer_read hread
    · exact Ram.answer_of_error herror
  intro a request hquiet
  change (request.isWrite = false ∨ ∃ f, (bus.answer a request).1 = .error f) at hquiet
  change (bus.answer a request).2 = bus
  cases h with
  | @alone ram hsize =>
    rw [alone_answer] at hquiet ⊢
    rw [hram ram a request hquiet]
  | @covered ram sink hsize hsink =>
    by_cases ha : OnScreen a
    · rw [covered_answer_of_onScreen ha] at hquiet ⊢
      rcases hquiet with hread | ⟨f, herror⟩
      · cases request with
        | readByte | readWord => rfl
        | writeByte | writeWord => cases hread
      · obtain ⟨reply, sink', hanswer, -⟩ := hsteady.screen hsink (a - 0x3000) request
        rw [hanswer] at herror
        cases herror
    · rw [covered_answer ha] at hquiet ⊢
      rw [hram ram a request hquiet]

/-- A byte can be read everywhere, which changes nothing. -/
theorem Backed.exists_readByte (hsteady : Sink.Steady steady) (h : Backed steady bus) (a : Word) :
    ∃ byte, bus.answer a .readByte = (.ok byte, bus) := by
  have hending : Device.ending bus a .readByte = .ok () :=
    (h.answer hsteady a .readByte).1.trans (if_neg fun hlast => absurd hlast.2 (by decide))
  obtain ⟨byte, bus', hread⟩ := Device.exists_answer_eq_ok hending
  have hkeep := h.onlyWritesChange hsteady a .readByte (Or.inl rfl)
  rw [hread] at hkeep
  obtain rfl : bus' = bus := hkeep
  exact ⟨byte, hread⟩

end

end Bus

/-! ## Runs -/

namespace Machine

theorem after_bus_succ {δ : Type} [Device δ] (machine : Machine δ) (n : Nat) :
    (machine.after (n + 1)).bus = if (machine.after n).halted then (machine.after n).bus
      else ((Microcode.instruction (machine.after n).core).eval (machine.after n).bus).2 := by
  rw [after_succ]
  cases hm : (machine.after n).halted with
  | true => rw [step_of_halted hm, if_pos rfl]
  | false => rw [bus_step hm, if_neg (by decide)]

section

variable {σ : Type} [Sink σ] {steady : σ → Prop} {machine : Machine (Ram ⊕ Screen σ)}

theorem backed_after (hsteady : Sink.Steady steady) (h : Bus.Backed steady machine.bus) (n : Nat) :
    Bus.Backed steady (machine.after n).bus := by
  induction n with
  | zero => exact h
  | succ n ih =>
    rw [after_bus_succ]
    split
    · exact ih
    · exact ih.eval hsteady _

/-- With memory everywhere a step that fails does not change the bus. -/
theorem bus_of_backed (hsteady : Sink.Steady steady) (h : Bus.Backed steady machine.bus)
    {fault : Fault} (hfault : machine.step.1 = .error fault) : machine.step.2.bus = machine.bus :=
  @bus_of_verdict _ _ _ _
    (fun a width =>
      if a = 0xffff ∧ width = 2 then .error (.outOfBounds 0xffff Bus.addressSpace) else .ok ())
    (h.onlyWritesChange hsteady) (fun _ hevent => ending_of_mem_trace hsteady h hevent) hfault

end

/-- What a machine draws in its next `n` steps. -/
def drawn {δ : Type} [Device δ] (machine : Machine δ) (n : Nat) : List Byte :=
  (List.range n).flatMap fun k => (machine.after k).trace.flatMap Event.drawing

theorem drawn_succ {δ : Type} [Device δ] (machine : Machine δ) (n : Nat) :
    machine.drawn (n + 1) =
      machine.drawn n ++ (machine.after n).trace.flatMap Event.drawing := by
  rw [drawn, List.range_succ, List.flatMap_append, List.flatMap_singleton]
  rfl

variable {machine : Machine (Ram ⊕ Screen Buffer)}

/-- The buffer of the screen is extended by what the machine draws. -/
theorem exists_bus_after {ram : Ram} {buffer : Buffer} (hbus : machine.bus = Bus.covered ram ⟨buffer⟩)
    (hopen : buffer.Open) (n : Nat) :
    ∃ ram', (machine.after n).bus = Bus.covered ram' ⟨buffer.extended (machine.drawn n)⟩ := by
  induction n with
  | zero => exact ⟨ram, by rw [drawn, List.range_zero, List.flatMap_nil, Buffer.extended_nil]; exact hbus⟩
  | succ n ih =>
    obtain ⟨ram', hafter⟩ := ih
    rw [after_bus_succ, drawn_succ]
    split
    next hm =>
      rw [trace, if_pos hm, List.flatMap_nil, List.append_nil]
      exact ⟨ram', hafter⟩
    next hm =>
      obtain ⟨result, ram'', trace, hcovered⟩ :=
        Bus.exists_eval_covered (Microcode.instruction (machine.after n).core) ram'
      obtain ⟨heval, htrace⟩ := hcovered _ (hopen.extended (machine.drawn n))
      rw [Machine.trace, if_neg hm, hafter, heval, htrace, Buffer.extended_extended]
      exact ⟨ram'', rfl⟩

theorem exists_bus_after_of_alone {ram : Ram} (hbus : machine.bus = ⟨[Bus.whole ram], 1⟩) (n : Nat) :
    ∃ ram', (machine.after n).bus = ⟨[Bus.whole ram'], 1⟩ := by
  induction n with
  | zero => exact ⟨ram, hbus⟩
  | succ n ih =>
    obtain ⟨ram', hafter⟩ := ih
    rw [after_bus_succ]
    split
    · exact ⟨ram', hafter⟩
    · rw [hafter]
      exact Bus.exists_eval_alone _

end Machine

end WordMachine
